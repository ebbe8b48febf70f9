import Mathlib
import Hivemind.Lib.Householder
import Hivemind.Linalg.Mat

/-!
# Bidiagonal form

`tc_mat_bidiag_decomp`: column by column, a reflection from the left clears the entries below the
diagonal, and one from the right clears the row beyond the superdiagonal.

A step from the left at `k` only mixes the rows from `k` on, and a step from the right the
columns from `k + 1` on.  There the columns and rows that were cleared before are zero, so they
stay as they are.  `Reduced` is the invariant of the loop: the product of the three matrices is
the one that was given, the outer two are orthogonal, and so many columns and rows are clear.

A `double` is an exact number of an ordered field, and `sqrt` is a parameter that is right on the
squares that occur; the sign of the root is the one that keeps it away from the entry, so that no
division is by zero.

* `fromLeft_reduced`, `fromRight_reduced`: one reflection clears one more column or row.
* `bidiagLoop_reduced`: all columns and rows are cleared that the loop goes over.
* `tcMatBidiagDecomp_bidiagonal`: **the decomposition**, of every matrix that is not wider than
  it is high.
* `squareMatrix_bidiagonal`: a square matrix that is reflected from both sides.
-/

namespace Hivemind

open Weighted Finset Householder

/-- `sqrt`, exact on the numbers that have a root. -/
structure SquareRoot (K : Type) [Field K] [LinearOrder K] where
  sqrt : K → K
  sqrt_nonneg : ∀ x, 0 ≤ x → 0 ≤ sqrt x
  sqrt_mul_self : ∀ x, 0 ≤ x → sqrt x * sqrt x = x

/-- The root of the real numbers. -/
noncomputable def realSqrt : SquareRoot ℝ where
  sqrt := Real.sqrt
  sqrt_nonneg := fun x _ => Real.sqrt_nonneg x
  sqrt_mul_self := fun _ h => Real.mul_self_sqrt h

/-- The three matrices that `tc_mat_bidiag_decomp` writes. -/
structure Bidiag (K : Type) (nr nc : Nat) where
  U : TcMat K nr nr
  B : TcMat K nr nc
  V : TcMat K nc nc

variable {K : Type} [Field K] [LinearOrder K] {nr nc : Nat}

/-! ## The program -/

/-- `b` and `bb`: the root, with the sign that is not the one of the entry. -/
def signedRoot (R : SquareRoot K) (pivot sum : K) : K :=
  (if pivot > 0 then -1 else 1) * R.sqrt sum

/-- `u`, for the column or row `x`. -/
def reflectVector {n : Nat} (x : Fin n → K) (k : Nat) (s : K) : TcMat K n 1 :=
  fun i _ => if i.val > k then x i / s else if i.val = k then 1 else 0

/-- `P = I - tau u u^T`. -/
def reflectMat {n : Nat} (tau : K) (u : TcMat K n 1) : TcMat K n n :=
  tcMatAdd tcMatIdentity (tcMatMultScalar (-tau) (tcMatMult u (tcMatTranspose u)))

/-- From the left: clear column `k` below the diagonal. -/
def fromLeft (R : SquareRoot K) (k : Nat) (d : Bidiag K nr nc) : Bidiag K nr nc :=
  let col : Fin nr → K := fun i => entry d.B i k
  let sum := sumLoopFrom k fun i => col i * col i
  if sum ≠ 0 then
    let b := signedRoot R (entry d.B k k) sum
    let s := entry d.B k k - b
    let P := reflectMat (-s / b) (reflectVector col k s)
    { d with B := tcMatMult P d.B, U := tcMatMult d.U P }
  else d

/-- From the right: clear row `k` beyond the superdiagonal. -/
def fromRight (R : SquareRoot K) (k : Nat) (d : Bidiag K nr nc) : Bidiag K nr nc :=
  if k + 2 < nc then
    let row : Fin nc → K := fun j => entry d.B k j
    let sum := sumLoopFrom (k + 1) fun j => row j * row j
    let b := signedRoot R (entry d.B k (k + 1)) sum
    if b ≠ 0 then
      let s := entry d.B k (k + 1) - b
      let P := reflectMat (-s / b) (reflectVector row (k + 1) s)
      { d with B := tcMatMult d.B P, V := tcMatMult P d.V }
    else d
  else d

/-- The loop over `k`; the first argument bounds the passes that are left. -/
def bidiagLoop (R : SquareRoot K) : Nat → Nat → Bidiag K nr nc → Bidiag K nr nc
  | 0, _, d => d
  | n + 1, k, d =>
    if k < nc ∧ k + 1 < nr then bidiagLoop R n (k + 1) (fromRight R k (fromLeft R k d)) else d

/-- `tc_mat_bidiag_decomp`. -/
def tcMatBidiagDecomp (R : SquareRoot K) (A : TcMat K nr nc) : Bidiag K nr nc :=
  bidiagLoop R nc 0 ⟨tcMatIdentity, A, tcMatIdentity⟩

/-! ## One reflection -/

omit [LinearOrder K] in
@[simp] theorem of_reflectMat {n : Nat} (tau : K) (x : Fin n → K) (k : Nat) (s : K) :
    Matrix.of (reflectMat tau (reflectVector x k s)) = reflection tau (pivot x k s) := by
  have hentry : ∀ i j, reflectVector x k s i j = pivot x k s i := fun _ _ => rfl
  ext i j
  simp [reflectMat, reflection, tcMatAdd, tcMatIdentity, tcMatMultScalar, tcMatMult, tcMatTranspose,
    hentry, Matrix.one_apply, Matrix.vecMulVec_apply, sub_eq_add_neg]

section Ordered

variable [IsStrictOrderedRing K]

theorem tailNorm_nonneg {n : Nat} (x : Fin n → K) (k : Nat) : 0 ≤ tailNorm x k :=
  sum_nonneg fun i _ => mul_self_nonneg (x i)

/-- With no length from the position on, every entry there is zero. -/
theorem eq_zero_of_tailNorm {n : Nat} {x : Fin n → K} {k : Nat} (h : tailNorm x k = 0) {i : Fin n}
    (hi : k ≤ i.val) : x i = 0 := by
  have hsquare := (sum_eq_zero_iff_of_nonneg fun i _ => mul_self_nonneg (x i)).mp h i
    (mem_filter.mpr ⟨mem_univ i, hi⟩)
  exact mul_self_eq_zero.mp hsquare

theorem signedRoot_mul_self (R : SquareRoot K) (pivot : K) {sum : K} (h : 0 ≤ sum) :
    signedRoot R pivot sum * signedRoot R pivot sum = sum := by
  have hroot := R.sqrt_mul_self sum h
  rw [signedRoot]
  split_ifs <;> linear_combination hroot

/-- The sign of the root keeps it away from the entry. -/
theorem sub_signedRoot_ne_zero (R : SquareRoot K) {pivot sum : K} (h : 0 ≤ sum)
    (hne : signedRoot R pivot sum ≠ 0) : pivot - signedRoot R pivot sum ≠ 0 := by
  have hroot := R.sqrt_nonneg sum h
  rw [signedRoot] at hne ⊢
  have hpos : R.sqrt sum ≠ 0 := right_ne_zero_of_mul hne
  have hpos : 0 < R.sqrt sum := lt_of_le_of_ne hroot hpos.symm
  split_ifs with hsign
  · linarith
  · linarith [not_lt.mp hsign]

/-! ## The invariant -/

/-- The product is the matrix that was given, and the first `l` columns and `r` rows are
cleared. -/
structure Reduced (A : TcMat K nr nc) (l r : Nat) (d : Bidiag K nr nc) : Prop where
  left : IsOrthogonal (Matrix.of d.U)
  right : IsOrthogonal (Matrix.of d.V)
  product : Matrix.of d.U * Matrix.of d.B * Matrix.of d.V = Matrix.of A
  below : ∀ i j, j.val < l → j.val < i.val → d.B i j = 0
  above : ∀ i j, i.val < r → i.val + 1 < j.val → d.B i j = 0

omit [LinearOrder K] [IsStrictOrderedRing K] in
theorem reduced_start (A : TcMat K nr nc) :
    Reduced A 0 0 ⟨tcMatIdentity, A, tcMatIdentity⟩ where
  left := by simpa only [of_tcMatIdentity] using isOrthogonal_one
  right := by simpa only [of_tcMatIdentity] using isOrthogonal_one
  product := by simp only [of_tcMatIdentity, Matrix.one_mul, Matrix.mul_one]
  below := fun _ j h => absurd h (Nat.not_lt_zero j.val)
  above := fun i _ h => absurd h (Nat.not_lt_zero i.val)

variable {A : TcMat K nr nc} {d : Bidiag K nr nc} {l r : Nat}

omit [LinearOrder K] [IsStrictOrderedRing K] in
/-- A reflection on the left of `B`. -/
theorem Reduced.mul_left (h : Reduced A l r d) {P : TcMat K nr nr} {tau : K} {u : Fin nr → K}
    (hP : Matrix.of P = reflection tau u) (htau : tau * u ⬝ᵥ u = 2) {l' : Nat}
    (hbelow : ∀ i j, j.val < l' → j.val < i.val →
      (reflection tau u * Matrix.of d.B : Matrix _ _ K) i j = 0)
    (habove : ∀ i j, i.val < r → (reflection tau u * Matrix.of d.B : Matrix _ _ K) i j = d.B i j) :
    Reduced A l' r { d with B := tcMatMult P d.B, U := tcMatMult d.U P } := by
  have hself := reflection_mul_self htau
  have hentry : ∀ i j,
      tcMatMult P d.B i j = (reflection tau u * Matrix.of d.B : Matrix _ _ K) i j := by
    intro i j
    rw [← hP, ← of_tcMatMult, Matrix.of_apply]
  refine ⟨?_, h.right, ?_, fun i j hj hij => (hentry i j).trans (hbelow i j hj hij),
    fun i j hi hij => ((hentry i j).trans (habove i j hi)).trans (h.above i j hi hij)⟩
  · simp only [of_tcMatMult, hP]
    exact h.left.mul (isOrthogonal_reflection htau)
  · simp only [of_tcMatMult, hP]
    rw [mul_mul_cancel_middle hself, h.product]

omit [LinearOrder K] [IsStrictOrderedRing K] in
/-- A reflection on the right of `B`. -/
theorem Reduced.mul_right (h : Reduced A l r d) {P : TcMat K nc nc} {tau : K} {u : Fin nc → K}
    (hP : Matrix.of P = reflection tau u) (htau : tau * u ⬝ᵥ u = 2) {r' : Nat}
    (hbelow : ∀ i j, j.val < l → (Matrix.of d.B * reflection tau u : Matrix _ _ K) i j = d.B i j)
    (habove : ∀ i j, i.val < r' → i.val + 1 < j.val →
      (Matrix.of d.B * reflection tau u : Matrix _ _ K) i j = 0) :
    Reduced A l r' { d with B := tcMatMult d.B P, V := tcMatMult P d.V } := by
  have hself := reflection_mul_self htau
  have hentry : ∀ i j,
      tcMatMult d.B P i j = (Matrix.of d.B * reflection tau u : Matrix _ _ K) i j := by
    intro i j
    rw [← hP, ← of_tcMatMult, Matrix.of_apply]
  refine ⟨h.left, ?_, ?_,
    fun i j hj hij => ((hentry i j).trans (hbelow i j hj)).trans (h.below i j hj hij),
    fun i j hi hij => (hentry i j).trans (habove i j hi hij)⟩
  · simp only [of_tcMatMult, hP]
    exact (isOrthogonal_reflection htau).mul h.right
  · simp only [of_tcMatMult, hP]
    rw [← Matrix.mul_assoc (Matrix.of d.U), mul_mul_cancel_middle hself, h.product]

/-- **From the left**: column `k` is cleared, and the columns and rows before it stay. -/
theorem fromLeft_reduced (R : SquareRoot K) {k : Fin nc} (hk : k.val < nr)
    (h : Reduced A k k d) : Reduced A (k + 1) k (fromLeft R k d) := by
  have hsum : (sumLoopFrom k.val fun i : Fin nr => entry d.B i k * entry d.B i k) =
      tailNorm (fun i => d.B i k) k := by
    simp [tailNorm]
  have hpivot : entry d.B k k = d.B ⟨k, hk⟩ k := entry_val d.B ⟨k, hk⟩ k
  have hcol : (fun i : Fin nr => entry d.B i k) = fun i => d.B i k := by
    funext i
    rw [entry_val]
  have hnonneg := tailNorm_nonneg (fun i => d.B i k) k
  simp only [fromLeft, hsum, hcol, hpivot]
  split_ifs with hzero
  · have hb := signedRoot_mul_self R (d.B ⟨k, hk⟩ k) hnonneg
    have hb0 : signedRoot R (d.B ⟨k, hk⟩ k) (tailNorm (fun i => d.B i k) k) ≠ 0 :=
      fun h0 => hzero (by rw [← hb, h0, mul_zero])
    have hs0 := sub_signedRoot_ne_zero R hnonneg hb0
    have htau := tau_mul_dotProduct_pivot (k := ⟨k, hk⟩) hb rfl hs0 hb0
    refine h.mul_left (of_reflectMat _ _ _ _) htau ?_ ?_
    · intro i j hj hij
      rcases Nat.lt_succ_iff_lt_or_eq.mp hj with hlt | heq
      · -- an earlier column is zero where the reflection acts
        have hcolumn : ∀ i : Fin nr, k.val ≤ i.val → d.B i j = 0 :=
          fun i hi => h.below i j hlt (lt_of_lt_of_le hlt hi)
        exact (reflection_mul_of_zero _ hcolumn i).trans (h.below i j hlt hij)
      · obtain rfl : j = k := Fin.ext heq
        exact reflection_mul_self_column hb rfl hs0 hb0 hij
    · intro i j hi
      exact reflection_mul_of_lt _ hi
  · have hcolumn : ∀ i : Fin nr, k.val ≤ i.val → d.B i k = 0 :=
      fun i hi => eq_zero_of_tailNorm (not_not.mp hzero) hi
    refine ⟨h.left, h.right, h.product, ?_, h.above⟩
    intro i j hj hij
    rcases Nat.lt_succ_iff_lt_or_eq.mp hj with hlt | heq
    · exact h.below i j hlt hij
    · obtain rfl : j = k := Fin.ext heq
      exact hcolumn i (Nat.le_of_lt hij)

/-- **From the right**: row `k` is cleared, and the columns up to `k` and the rows before
it stay. -/
theorem fromRight_reduced (R : SquareRoot K) {k : Fin nr} (h : Reduced A (k + 1) k d) :
    Reduced A (k + 1) (k + 1) (fromRight R k d) := by
  rw [fromRight]
  split_ifs with hk
  · have hsum : (sumLoopFrom (k.val + 1) fun j : Fin nc => entry d.B k j * entry d.B k j) =
        tailNorm (d.B k) (k + 1) := by
      simp [tailNorm]
    have hk1 : k.val + 1 < nc := Nat.lt_of_succ_lt hk
    have hpivot : entry d.B k (k + 1) = d.B k ⟨k + 1, hk1⟩ := entry_val d.B k ⟨k + 1, hk1⟩
    have hrow : (fun j : Fin nc => entry d.B k j) = d.B k := by
      funext j
      rw [entry_val]
    have hnonneg := tailNorm_nonneg (d.B k) (k + 1)
    have hb := signedRoot_mul_self R (d.B k ⟨k + 1, hk1⟩) hnonneg
    simp only [hsum, hrow, hpivot]
    split_ifs with hb0
    · have hs0 := sub_signedRoot_ne_zero R hnonneg hb0
      have htau := tau_mul_dotProduct_pivot (k := ⟨k + 1, hk1⟩) hb rfl hs0 hb0
      refine h.mul_right (of_reflectMat _ _ _ _) htau ?_ ?_
      · intro i j hj
        rw [mul_reflection_eq]
        exact reflection_mul_of_lt _ hj
      · intro i j hi hij
        rw [mul_reflection_eq]
        rcases Nat.lt_succ_iff_lt_or_eq.mp hi with hlt | heq
        · -- an earlier row is zero where the reflection acts
          have hrow : ∀ j : Fin nc, k.val + 1 ≤ j.val → (Matrix.of d.B).transpose j i = 0 :=
            fun j hj => h.above i j hlt (lt_of_lt_of_le (Nat.succ_lt_succ hlt) hj)
          exact (reflection_mul_of_zero _ hrow j).trans (h.above i j hlt hij)
        · obtain rfl : i = k := Fin.ext heq
          exact reflection_mul_self_column (k := ⟨i + 1, hk1⟩) (B := (Matrix.of d.B).transpose)
            hb rfl hs0 hb0 hij
    · have hzero : tailNorm (d.B k) (k + 1) = 0 := by rw [← hb, not_not.mp hb0, mul_zero]
      refine ⟨h.left, h.right, h.product, h.below, ?_⟩
      intro i j hi hij
      rcases Nat.lt_succ_iff_lt_or_eq.mp hi with hlt | heq
      · exact h.above i j hlt hij
      · obtain rfl : i = k := Fin.ext heq
        exact eq_zero_of_tailNorm hzero (Nat.le_of_lt hij)
  · refine ⟨h.left, h.right, h.product, h.below, ?_⟩
    intro i j hi hij
    rcases Nat.lt_succ_iff_lt_or_eq.mp hi with hlt | heq
    · exact h.above i j hlt hij
    · -- no column is left beyond the superdiagonal
      exact absurd j.isLt (by omega)

/-! ## The loop -/

/-- The loop ends with all columns and rows cleared that it goes over. -/
theorem bidiagLoop_reduced (R : SquareRoot K) (n k : Nat) (h : Reduced A k k d)
    (hn : nc ≤ n + k) :
    ∃ k', (nc ≤ k' ∨ nr ≤ k' + 1) ∧ Reduced A k' k' (bidiagLoop R n k d) := by
  induction n generalizing k d with
  | zero => exact ⟨k, Or.inl (by omega), h⟩
  | succ n ih =>
    rw [bidiagLoop]
    split_ifs with hk
    · have hkr : k < nr := Nat.lt_of_succ_lt hk.2
      have hleft : Reduced A (k + 1) k (fromLeft R k d) :=
        fromLeft_reduced R (k := ⟨k, hk.1⟩) hkr h
      have hright : Reduced A (k + 1) (k + 1) (fromRight R k (fromLeft R k d)) :=
        fromRight_reduced R (k := ⟨k, hkr⟩) hleft
      exact ih (k + 1) hright (by omega)
    · exact ⟨k, by omega, h⟩

/-- Only the diagonal and the first superdiagonal may be nonzero. -/
def IsBidiagonal (B : TcMat K nr nc) : Prop :=
  ∀ i j, j.val ≠ i.val → j.val ≠ i.val + 1 → B i j = 0

/-- **Bidiagonalisation**: orthogonal matrices on both sides, the given matrix as the
product, and a bidiagonal matrix in the middle. -/
theorem tcMatBidiagDecomp_bidiagonal (R : SquareRoot K) (A : TcMat K nr nc) (hle : nc ≤ nr) :
    IsOrthogonal (Matrix.of (tcMatBidiagDecomp R A).U) ∧
      IsOrthogonal (Matrix.of (tcMatBidiagDecomp R A).V) ∧
      tcMatMult (tcMatMult (tcMatBidiagDecomp R A).U (tcMatBidiagDecomp R A).B)
        (tcMatBidiagDecomp R A).V = A ∧
      IsBidiagonal (tcMatBidiagDecomp R A).B := by
  obtain ⟨k, hk, h⟩ := bidiagLoop_reduced R nc 0 (reduced_start A) le_rfl
  refine ⟨h.left, h.right, ?_, ?_⟩
  · apply Matrix.of.injective
    simp only [of_tcMatMult]
    exact h.product
  · intro i j hne hne'
    have hi := i.isLt
    have hj := j.isLt
    rcases Nat.lt_or_gt_of_ne hne with hlt | hgt
    · exact h.below i j (by omega) hlt
    · exact h.above i j (by omega) (by omega)

/-- A square matrix, whose first column has length three. -/
def squareMatrix : TcMat ℝ 3 3 := ![![2, 1, 2], ![2, 3, 1], ![1, 4, 4]]

/-- It is reflected from both sides. -/
theorem squareMatrix_bidiagonal :
    IsOrthogonal (Matrix.of (tcMatBidiagDecomp realSqrt squareMatrix).U) ∧
      IsOrthogonal (Matrix.of (tcMatBidiagDecomp realSqrt squareMatrix).V) ∧
      tcMatMult (tcMatMult (tcMatBidiagDecomp realSqrt squareMatrix).U
          (tcMatBidiagDecomp realSqrt squareMatrix).B) (tcMatBidiagDecomp realSqrt squareMatrix).V =
        squareMatrix ∧
      IsBidiagonal (tcMatBidiagDecomp realSqrt squareMatrix).B :=
  tcMatBidiagDecomp_bidiagonal realSqrt squareMatrix (by decide)

end Ordered

end Hivemind
