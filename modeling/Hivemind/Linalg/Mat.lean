import Mathlib
import Hivemind.Lib.Weights

/-!
# Matrices, weights and the principal component

`tc_mat.c`, up to the vote: the small matrix operations, the weighted mean and median of a
column, and the first principal component of the votes.  A `double` is an exact number of an
ordered field.

The singular value decomposition and the order in which `qsort` leaves equal values are left
open: `Platform` is any choice of the two, so that what is proved of the vote holds whatever they
return.  The dimensions of a matrix are part of its type; a function of the source that reads one
entry of a matrix without a look at the size says here what it finds when there is none.

The functions are those of the source, loop by loop, as sums and folds over `Fin n`.  The one
fact about the principal component that everything later rests on is that the matrix is centred:
its columns have weighted mean zero, and so have the scores.

* `tcWgtNormalize_mem`: a vector that is not zero becomes weights.
* `centred_mean`, `centred_mult_mean`: the centred matrix, and its product with any loadings.
* `tcWgtPrinComp_mean`: **the scores have weighted mean zero**, whatever the decomposition is.
-/

namespace Hivemind

open Weighted Finset

/-- `struct tc_mat`, with its dimensions in the type. -/
abbrev TcMat (K : Type) (nr nc : Nat) := Fin nr → Fin nc → K

/-- `struct vecdouble`. -/
structure VecDouble (K : Type) where
  wgt : K
  value : K

/-- What the functions here take as given. -/
structure Platform (K : Type) where
  /-- `tc_mat_svd` of a square matrix: the return code and `U`. -/
  tcMatSvd : {n : Nat} → TcMat K n n → Int × TcMat K n n
  /-- `qsort` with `vecdouble_cmp`, which never finds two values equal. -/
  qsort : List (VecDouble K) → List (VecDouble K)

/-- What `tc_wgt_prin_comp` writes when it succeeds. -/
structure PrinComp (K : Type) (nr nc : Nat) where
  loadings : TcMat K nc 1
  scores : TcMat K nr 1

variable {K : Type} [Field K] [LinearOrder K] {nr nc : Nat}

/-! ## Matrices -/

/-- `tc_mat_norm`: the sum of the squares. -/
def tcMatNorm (A : TcMat K nr nc) : K := sumLoop₂ fun i j => A i j * A i j

/-- `tc_mat_transpose`. -/
def tcMatTranspose (A : TcMat K nr nc) : TcMat K nc nr := fun j i => A i j

/-- `tc_mat_identity` of a square matrix. -/
def tcMatIdentity {n : Nat} : TcMat K n n := fun i j => if i = j then 1 else 0

/-- `tc_mat_add`. -/
def tcMatAdd (A B : TcMat K nr nc) : TcMat K nr nc := fun i j => A i j + B i j

/-- `tc_mat_mult_scalar`. -/
def tcMatMultScalar (a : K) (B : TcMat K nr nc) : TcMat K nr nc := fun i j => a * B i j

/-- `tc_mat_sub`. -/
def tcMatSub (A B : TcMat K nr nc) : TcMat K nr nc := fun i j => A i j - B i j

/-- `tc_mat_mult`. -/
def tcMatMult {n : Nat} (A : TcMat K nr n) (B : TcMat K n nc) : TcMat K nr nc :=
  fun i j => sumLoop fun k => A i k * B k j

/-- `A->a[i][j]`; no entry outside of the matrix is read. -/
def entry (A : TcMat K nr nc) (i j : Nat) : K :=
  if h : i < nr ∧ j < nc then A ⟨i, h.1⟩ ⟨j, h.2⟩ else 0

omit [LinearOrder K] in
@[simp] theorem entry_val (A : TcMat K nr nc) (i : Fin nr) (j : Fin nc) :
    entry A i.val j.val = A i j := by
  simp [entry]

omit [LinearOrder K] in
/-- `tc_mat_mult` is the product of matrices. -/
@[simp] theorem of_tcMatMult {n : Nat} (A : TcMat K nr n) (B : TcMat K n nc) :
    Matrix.of (tcMatMult A B) = Matrix.of A * Matrix.of B := by
  ext i j
  simp [tcMatMult, Matrix.mul_apply]

omit [LinearOrder K] in
@[simp] theorem of_tcMatIdentity {n : Nat} : Matrix.of (tcMatIdentity : TcMat K n n) = 1 := by
  ext i j
  simp [tcMatIdentity, Matrix.one_apply]

/-- A loop that starts from the entry of the first row and compares it with the others;
the matrix is never empty where this is used. -/
def bestEntry (better : K → K → Prop) [DecidableRel better] (A : TcMat K nr 1) : K :=
  match List.ofFn fun i => A i 0 with
  | [] => 0
  | first :: rest => pickLoop better first rest

/-- `min_score`. -/
def minEntry (A : TcMat K nr 1) : K := bestEntry (fun x best => best > x) A

/-- `max_score` and `max_noncompliance`. -/
def maxEntry (A : TcMat K nr 1) : K := bestEntry (fun x best => best < x) A

omit [LinearOrder K] in
theorem bestEntry_best (better : K → K → Prop) [DecidableRel better]
    (hasymm : ∀ a b, better a b → ¬ better b a)
    (htrans : ∀ a b c, ¬ better a b → ¬ better b c → ¬ better a c) (A : TcMat K nr 1)
    (i : Fin nr) : ¬ better (A i 0) (bestEntry better A) := by
  have hi : A i 0 ∈ List.ofFn fun i => A i 0 := List.mem_ofFn.mpr ⟨i, rfl⟩
  rw [bestEntry]
  cases hrows : List.ofFn fun i => A i 0 with
  | nil =>
    rw [hrows] at hi
    cases hi
  | cons first rest =>
    rw [hrows] at hi
    exact pickLoop_best better hasymm htrans first rest _ hi

theorem minEntry_le (A : TcMat K nr 1) (i : Fin nr) : minEntry A ≤ A i 0 :=
  not_lt.mp (bestEntry_best (fun x best => best > x) (fun _ _ h => not_lt.mpr (le_of_lt h))
    (fun _ _ _ h h' => not_lt.mpr (le_trans (not_lt.mp h') (not_lt.mp h))) A i)

theorem le_maxEntry (A : TcMat K nr 1) (i : Fin nr) : A i 0 ≤ maxEntry A :=
  not_lt.mp (bestEntry_best (fun x best => best < x) (fun _ _ h => not_lt.mpr (le_of_lt h))
    (fun _ _ _ h h' => not_lt.mpr (le_trans (not_lt.mp h) (not_lt.mp h'))) A i)

/-! ## Weights -/

/-- The sign changes of `tc_wgt_normalize`. -/
def dropSigns (wgt : TcMat K nr nc) : TcMat K nr nc :=
  fun i j => if wgt i j < 0 then -wgt i j else wgt i j

/-- `tc_wgt_normalize`. -/
def tcWgtNormalize (wgt : TcMat K nr nc) : TcMat K nr nc :=
  let sum := sumLoop₂ (dropSigns wgt)
  if sum = 0 then dropSigns wgt else fun i j => dropSigns wgt i j / sum

/-- The loop of `tc_wgt_mean`: the sum and the sum of the weights. -/
def meanSums (wgt : TcMat K nr 1) (A : TcMat K nr nc) (j : Fin nc) (na : K) : K × K :=
  (List.finRange nr).foldl (fun sums i =>
    if wgt i 0 ≤ 0 then sums
    else if A i j = na then sums
    else (sums.1 + wgt i 0 * A i j, sums.2 + wgt i 0)) (0, 0)

/-- `tc_wgt_mean`. -/
def tcWgtMean (wgt : TcMat K nr 1) (A : TcMat K nr nc) (j : Fin nc) (na : K) : K :=
  let sums := meanSums wgt A j na
  if sums.2 > 0 then sums.1 / sums.2 else 0

/-- The last loop of `tc_wgt_median`, over the values that are left, and the average. -/
def medianScan (midWgts : K) : K → K → List (VecDouble K) → K
  | median, _, [] => median
  | median, sum, v :: rest =>
    if sum < midWgts then medianScan midWgts v.value (sum + v.wgt) rest
    else if |sum - midWgts| < 1 / 10 ^ 8 then 1 / 2 * (median + v.value)
    else median

/-- The values of a column that are not `NA`, with their weights. -/
def columnValues (wgt : TcMat K nr 1) (A : TcMat K nr nc) (j : Fin nc) (na : K) :
    List (VecDouble K) :=
  (List.finRange nr).filterMap fun i => if A i j = na then none else some ⟨wgt i 0, A i j⟩

/-- `tc_wgt_median`. -/
def tcWgtMedian (P : Platform K) (wgt : TcMat K nr 1) (A : TcMat K nr nc) (j : Fin nc) (na : K) :
    K :=
  let v := columnValues wgt A j na
  let midWgts := v.foldl (fun sum x => sum + x.wgt) 0 / 2
  if v.length ≤ 2 then 0
  else match P.qsort v with
    | [] => 0
    | x :: rest => medianScan midWgts x.value x.wgt rest

/-- A voter's reputation is a share of the whole. -/
structure IsReputation (rep : TcMat K nr 1) : Prop where
  nonneg : ∀ i, 0 ≤ rep i 0
  sum_eq : ∑ i, rep i 0 = 1

theorem isReputation_iff {rep : TcMat K nr 1} :
    IsReputation rep ↔ (fun i => rep i 0) ∈ stdSimplex K (Fin nr) :=
  ⟨fun h => ⟨h.nonneg, h.sum_eq⟩, fun h => ⟨h.1, h.2⟩⟩

section Ordered

variable [IsStrictOrderedRing K]

theorem dropSigns_eq (wgt : TcMat K nr nc) (i : Fin nr) (j : Fin nc) :
    dropSigns wgt i j = |wgt i j| := by
  rw [dropSigns]
  by_cases h : wgt i j < 0
  · rw [if_pos h, abs_of_neg h]
  · rw [if_neg h, abs_of_nonneg (not_lt.mp h)]

/-- A vector with an entry that is not zero is normalized to weights. -/
theorem tcWgtNormalize_mem {wgt : TcMat K nr 1} {i : Fin nr} (hi : wgt i 0 ≠ 0) :
    IsReputation (tcWgtNormalize wgt) := by
  have hsum : sumLoop₂ (dropSigns wgt) = ∑ i, |wgt i 0| := by simp [dropSigns_eq]
  have hpos : 0 < ∑ i, |wgt i 0| :=
    sum_pos' (fun i _ => abs_nonneg _) ⟨i, mem_univ i, abs_pos.mpr hi⟩
  have hentry : ∀ k, tcWgtNormalize wgt k 0 = |wgt k 0| / ∑ i, |wgt i 0| := by
    intro k
    rw [tcWgtNormalize, hsum]
    simp only [if_neg (ne_of_gt hpos), dropSigns_eq]
  refine ⟨?_, ?_⟩
  · intro k
    rw [hentry]
    exact div_nonneg (abs_nonneg _) (le_of_lt hpos)
  · simp only [hentry]
    rw [← Finset.sum_div, div_self (ne_of_gt hpos)]

end Ordered

/-! ## The principal component -/

/-- `x_mat`: the matrix minus its weighted column averages. -/
def centred (wgt : TcMat K nr 1) (M : TcMat K nr nc) : TcMat K nr nc :=
  fun i j => M i j - sumLoop fun k => wgt k 0 * M k j

/-- `wCVM`: the entry below the diagonal is written to both sides of it. -/
def weightedCovariance (wgt : TcMat K nr 1) (x : TcMat K nr nc) : TcMat K nc nc :=
  let wgts2 := sumLoop fun i => wgt i 0 * wgt i 0
  let factor := 1 / (1 - wgts2)
  let entry (i j : Fin nc) := factor * sumLoop fun k => wgt k 0 * x k i * x k j
  fun i j => if j ≤ i then entry i j else entry j i

/-- The loop that writes `loadings`. -/
def firstColumn {K : Type} (U : TcMat K nc nc) : TcMat K nc 1 := fun i _ => U i ⟨0, i.pos⟩

/-- `tc_wgt_prin_comp`; nothing is written unless the decomposition returns zero. -/
def tcWgtPrinComp (P : Platform K) (wgt : TcMat K nr 1) (M : TcMat K nr nc) :
    Int × Option (PrinComp K nr nc) :=
  if nr ≤ 1 then (-1, none)
  else
    let x := centred wgt M
    let (rc, U) := P.tcMatSvd (weightedCovariance wgt x)
    if rc = 0 then
      (rc, some { loadings := firstColumn U, scores := tcMatMult x (firstColumn U) })
    else (rc, none)

/-- The columns of the centred matrix have weighted mean zero. -/
theorem centred_mean {wgt : TcMat K nr 1} (hw : IsReputation wgt) (M : TcMat K nr nc)
    (j : Fin nc) : ∑ i, wgt i 0 * centred wgt M i j = 0 := by
  simp only [centred, sumLoop_eq, mul_sub, sum_sub_distrib]
  rw [weighted_sum_const (isReputation_iff.mp hw), sub_self]

/-- So have the scores, for all loadings. -/
theorem centred_mult_mean {wgt : TcMat K nr 1} (hw : IsReputation wgt) (M : TcMat K nr nc)
    (loadings : TcMat K nc 1) :
    ∑ i, wgt i 0 * tcMatMult (centred wgt M) loadings i 0 = 0 := by
  simp only [tcMatMult, sumLoop_eq, mul_sum]
  rw [sum_comm]
  refine sum_eq_zero fun j _ => ?_
  calc ∑ i, wgt i 0 * (centred wgt M i j * loadings j 0)
      = (∑ i, wgt i 0 * centred wgt M i j) * loadings j 0 := by
        rw [sum_mul]
        exact sum_congr rfl fun i _ => by ring
    _ = 0 := by rw [centred_mean hw M j, zero_mul]

theorem tcWgtPrinComp_mean {P : Platform K} {wgt : TcMat K nr 1} (hw : IsReputation wgt)
    {M : TcMat K nr nc} {rc : Int} {comp : PrinComp K nr nc}
    (h : tcWgtPrinComp P wgt M = (rc, some comp)) : ∑ i, wgt i 0 * comp.scores i 0 = 0 := by
  rw [tcWgtPrinComp] at h
  by_cases hnr : nr ≤ 1
  · rw [if_pos hnr] at h
    cases h
  · rw [if_neg hnr] at h
    dsimp only at h
    split at h
    · cases h
      exact centred_mult_mean hw M (firstColumn _)
    · cases h

end Hivemind
