import Mathlib
import Hivemind.Lib.Givens
import Hivemind.Linalg.Bidiag

/-!
# The main loop of the singular value decomposition

`tc_mat_svd`, from the bidiagonal form to the end of its main loop, as a machine that makes one
pass of one loop at a time.  `U` has the size of the matrix, `D` and `V` are square.

Components are moved to the front when their diagonal entry, or the superdiagonal entry before
them, counts as zero; the rest is swept with shifted rotations.  What counts as zero is a
parameter, and so is the shift: the product is kept for any of them, as long as a rotation is
one, which is what `StepOk` asks.

A move takes a component to the front and those before it one place on: the columns of `U`, the
rows of `V` and the two diagonals of `D`.  It keeps the product where it is one reindexing of all
three matrices.  But the loop over the rows of `U` ends with the rows of `D`, and the two
diagonals of `D` are moved entry by entry, with the end of the matrix as a case of its own.
`MoveOk` says where this is the reindexing, and the last section has a matrix of rank two that is
not decomposed.

* `svdStep_decomposes`: a step that meets `StepOk` keeps `U * D * V`.
* `moveStep_decomposes_iff`: of a square matrix, other moves do not.
* `svdRun_decomposes`: **a run of such steps keeps it.**
* `stuckMatrix_not_decomposes`: a matrix of rank two for which a move does not.
-/

namespace Hivemind

open Weighted Finset Householder

variable {K : Type} [Field K] [LinearOrder K] {nr nc : Nat}

/-! ## Rotations and moves -/

/-- The loop over `j` that combines two rows. -/
def rotateRows (p q : Nat) (c s : K) (A : TcMat K nr nc) : TcMat K nr nc := fun i j =>
  if i.val = p then entry A p j * c - entry A q j * s
  else if i.val = q then entry A p j * s + entry A q j * c
  else A i j

/-- The loop over `j` that combines two columns. -/
def rotateCols (p q : Nat) (c s : K) (A : TcMat K nr nc) : TcMat K nr nc := fun i j =>
  if j.val = p then entry A i p * c - entry A i q * s
  else if j.val = q then entry A i p * s + entry A i q * c
  else A i j

/-- What ends at position `k` when `i0, .., i1 - 1` move down and `i1` moves to `i0`. -/
def moveIndex (i0 i1 k : Nat) : Nat :=
  if k = i0 then i1 else if i0 < k ∧ k ≤ i1 then k - 1 else k

/-- The move of the rows of `V`. -/
def moveRows (i0 i1 : Nat) (V : TcMat K nc nc) : TcMat K nc nc :=
  fun i j => entry V (moveIndex i0 i1 i) j

/-- The move of the columns of `U`; the loop over its rows ends with the rows of `D`. -/
def moveCols (i0 i1 : Nat) (U : TcMat K nr nc) : TcMat K nr nc :=
  fun i j => if i.val < nc then entry U i (moveIndex i0 i1 j) else U i j

/-- The entry of `D` that a move for a zero on the diagonal writes to `i, j`. -/
def moveSource (nc i0 i1 i j : Nat) : Nat × Nat :=
  let ir := if i1 + 1 = nc then i1 - 1 else i1
  if i = i0 ∧ j = ir + 1 then (i1, ir + 1)
  else if i = i0 ∧ j = i0 then (i1, i1)
  else if i0 < i ∧ i ≤ i1 ∧ (j = i ∨ j = i + 1) then (i - 1, j - 1)
  else (i, j)

/-- The move of the diagonal and the superdiagonal of `D`. -/
def moveDiag (i0 i1 : Nat) (D : TcMat K nc nc) : TcMat K nc nc := fun i j =>
  entry D (moveSource nc i0 i1 i j).1 (moveSource nc i0 i1 i j).2

/-- The same for a zero on the superdiagonal, at `i1 - 1, i1`. -/
def moveSuper (i0 i1 : Nat) (D : TcMat K nc nc) : TcMat K nc nc := fun i j =>
  if i.val = i0 ∧ j.val = i0 then entry D i1 i1
  else if i0 < i.val ∧ i.val ≤ i1 ∧ j = i then entry D (i - 1) (i - 1)
  else if i.val = i0 ∧ j.val = i0 + 1 then entry D (i1 - 1) i1
  else if i0 < i.val ∧ i.val < i1 ∧ j.val = i.val + 1 then entry D (i - 1) i
  else D i j

/-! ## The shift -/

/-- `tc_mat_eigenvalues`. -/
def tcMatEigenvalues (R : SquareRoot K) (A : TcMat K 2 2) : K × K :=
  let ad2 := (A 0 0 + A 1 1) / 2
  let det := ad2 * ad2 - (A 0 0 * A 1 1 - A 1 0 * A 0 1)
  let s := if det ≤ 0 then 0 else R.sqrt det
  (ad2 + s, ad2 - s)

/-- `tc_mat_wilkinson_shift`. -/
def tcMatWilkinsonShift (R : SquareRoot K) (A : TcMat K nr 2) : K :=
  let AT_A := tcMatMult (tcMatTranspose A) A
  let E := tcMatEigenvalues R AT_A
  if |E.1 - AT_A 1 1| < |E.2 - AT_A 1 1| then E.1 else E.2

/-- `t`. -/
def shiftBlock (D : TcMat K nc nc) (i1 : Nat) : TcMat K 3 2 := fun i j =>
  if i1 + i.val > 2 then entry D (i1 + i - 2) (i1 + j - 1) else 0

/-! ## The machine -/

/-- Where the main loop stands. -/
inductive SvdPc (K : Type) where
  /-- The head of the main loop. -/
  | head
  /-- The loop over the diagonal, at `i1`. -/
  | diag (i1 : Nat)
  /-- The loop that rotates away the row of a zero at `i1`. -/
  | chase (i1 i : Nat)
  /-- Before the component `i1` is moved to `i0`. -/
  | move (i1 : Nat)
  /-- The loop over the superdiagonal, at `i`. -/
  | super (i : Nat)
  /-- After the two loops. -/
  | check
  /-- The loop of the sweep, at `i`. -/
  | sweep (i1 i : Nat) (alpha beta : K)
  /-- After the main loop. -/
  | done

/-- The three matrices, `i0`, the number of the iteration, and the position. -/
structure SvdState (K : Type) (nr nc : Nat) where
  U : TcMat K nr nc
  D : TcMat K nc nc
  V : TcMat K nc nc
  i0 : Nat
  iter : Nat
  pc : SvdPc K

def SvdState.goto (s : SvdState K nr nc) (pc : SvdPc K) : SvdState K nr nc := { s with pc := pc }

variable (R : SquareRoot K) (threshold zero : K)

/-- The tests for a zero on the diagonal. -/
def diagStep (i1 : Nat) (s : SvdState K nr nc) : SvdState K nr nc :=
  if i1 < nc then
    if |entry s.D i1 i1| > zero then s.goto (.diag (i1 + 1))
    else if i1 + 1 = nc ∧ |entry s.D (i1 - 1) i1| > zero then s.goto (.diag (i1 + 1))
    else if i1 + 1 < nc ∧ |entry s.D i1 (i1 + 1)| > zero then s.goto (.chase i1 i1)
    else s.goto (.move i1)
  else s.goto (.super s.i0)

/-- One rotation that clears the row `i1`; the loop ends with `i1++`. -/
def chaseStep (i1 i : Nat) (s : SvdState K nr nc) : SvdState K nr nc :=
  if i + 1 < nc then
    let alpha := entry s.D i1 (i + 1)
    if |alpha| < zero then s.goto (.move (i1 + 1))
    else
      let beta := entry s.D (i + 1) (i + 1)
      let gamma := R.sqrt (alpha * alpha + beta * beta)
      { s with
        D := rotateRows i1 (i + 1) (beta / gamma) (alpha / gamma) s.D
        U := rotateCols i1 (i + 1) (beta / gamma) (alpha / gamma) s.U
        pc := .chase i1 (i + 1) }
  else s.goto (.move (i1 + 1))

/-- The move, and `i0++`. -/
def moveStep (i1 : Nat) (s : SvdState K nr nc) : SvdState K nr nc :=
  { s with
    U := moveCols s.i0 i1 s.U
    D := moveDiag s.i0 i1 s.D
    V := moveRows s.i0 i1 s.V
    i0 := s.i0 + 1
    pc := .diag (i1 + 1) }

/-- The tests for a zero on the superdiagonal, and the move of the last component. -/
def superStep (i : Nat) (s : SvdState K nr nc) : SvdState K nr nc :=
  if i + 1 < nc then
    if |entry s.D i (i + 1)| ≥ zero then s.goto (.super (i + 1))
    else if i = s.i0 then { s with i0 := s.i0 + 1, pc := .super (i + 1) }
    else if i + 2 ≠ nc then s.goto (.super (i + 1))
    else
      { s with
        U := moveCols s.i0 (i + 1) s.U
        D := moveSuper s.i0 (i + 1) s.D
        V := moveRows s.i0 (i + 1) s.V
        i0 := s.i0 + 1
        -- the last term is tried again
        pc := .super (if s.i0 + 1 ≠ i then i else i + 1) }
  else s.goto .check

/-- `largest_off_diag`. -/
def largestOffDiag (D : TcMat K nc nc) (i0 : Nat) : K :=
  ((List.range (nc - 1)).drop i0).foldl (fun largest i =>
    if |entry D i (i + 1)| > largest then |entry D i (i + 1)| else largest) 0

/-- The loop that looks for the end of the block; the first argument bounds it. -/
def blockEnd (D : TcMat K nc nc) : Nat → Nat → Nat
  | 0, i1 => i1
  | n + 1, i1 =>
    if i1 + 1 < nc then if |entry D i1 (i1 + 1)| < zero then i1 else blockEnd D n (i1 + 1)
    else i1

/-- The two ways out of the loop, and the start of the sweep. -/
def checkStep (s : SvdState K nr nc) : SvdState K nr nc :=
  if s.i0 ≥ nc - 1 then s.goto .done
  else if largestOffDiag s.D s.i0 < threshold then s.goto .done
  else
    let i1 := blockEnd zero s.D nc s.i0
    let mu := tcMatWilkinsonShift R (shiftBlock s.D i1)
    s.goto (.sweep i1 s.i0 (entry s.D s.i0 s.i0 * entry s.D s.i0 s.i0 - mu)
      (entry s.D s.i0 s.i0 * entry s.D s.i0 (s.i0 + 1)))

/-- `D V = (D G) (G^T V)`. -/
def sweepRight (i : Nat) (alpha beta : K) (s : SvdState K nr nc) : SvdState K nr nc :=
  let gamma := R.sqrt (alpha * alpha + beta * beta)
  { s with
    D := rotateCols i (i + 1) (alpha / gamma) (-beta / gamma) s.D
    V := rotateRows i (i + 1) (alpha / gamma) (-beta / gamma) s.V }

/-- `U D = (U G) (G^T D)`. -/
def sweepLeft (i : Nat) (s : SvdState K nr nc) : SvdState K nr nc :=
  let alpha := entry s.D i i
  let beta := entry s.D (i + 1) i
  let gamma := R.sqrt (alpha * alpha + beta * beta)
  if |gamma| > 0 then
    { s with
      D := rotateRows i (i + 1) (alpha / gamma) (-beta / gamma) s.D
      U := rotateCols i (i + 1) (alpha / gamma) (-beta / gamma) s.U }
  else s

/-- One pass of the sweep, or the end of the iteration. -/
def sweepStep (i1 i : Nat) (alpha beta : K) (s : SvdState K nr nc) : SvdState K nr nc :=
  if i < i1 then
    let right := sweepRight R i alpha beta s
    let left := sweepLeft R i right
    if i + 2 < nc then
      left.goto (.sweep i1 (i + 1) (entry left.D i (i + 1)) (entry left.D i (i + 2)))
    else left.goto (.sweep i1 (i + 1) (entry right.D i i) (entry right.D (i + 1) i))
  else { s with iter := s.iter + 1, pc := .head }

/-- One step of the main loop. -/
def svdStep (s : SvdState K nr nc) : SvdState K nr nc :=
  match s.pc with
  | .head => if s.iter < 100 * nc then s.goto (.diag s.i0) else s.goto .done
  | .diag i1 => diagStep zero i1 s
  | .chase i1 i => chaseStep R zero i1 i s
  | .move i1 => moveStep i1 s
  | .super i => superStep zero i s
  | .check => checkStep R threshold zero s
  | .sweep i1 i alpha beta => sweepStep R i1 i alpha beta s
  | .done => s

/-- `threshold`. -/
def svdThreshold (D : TcMat K nc nc) : K :=
  let larger (best x : K) : K := if |x| > best then |x| else best
  let diag := (List.range nc).foldl (fun best i => larger best (entry D i i)) (entry D 0 0)
  (List.range (nc - 1)).foldl (fun best i => larger best (entry D i (i + 1))) diag * (1 / 10 ^ 12)

/-- The state before the main loop: of a matrix that is not square, the first columns of
`U` and the first rows of `D` are kept. -/
def svdStart (A : TcMat K nr nc) : SvdState K nr nc where
  U := fun i j => entry (tcMatBidiagDecomp R A).U i j
  D := fun i j => entry (tcMatBidiagDecomp R A).B i j
  V := (tcMatBidiagDecomp R A).V
  i0 := 0
  iter := 0
  pc := .head

/-- The state after `n` steps, with `zero` for `zero_threshold`. -/
def svdRun (A : TcMat K nr nc) (n : Nat) : SvdState K nr nc :=
  (svdStep R (svdThreshold (svdStart R A).D) zero)^[n] (svdStart R A)

/-- `zero_threshold`. -/
def zeroThreshold (A : TcMat K nr nc) : K := 1 / 10 * svdThreshold (svdStart R A).D

/-! ## Rotations and moves as products -/

section Products

omit [LinearOrder K]

theorem of_rotateRows (p q : Fin nr) (c s : K) (A : TcMat K nr nc) :
    Matrix.of (rotateRows p q c s A) = givens p q c s * Matrix.of A := by
  ext i j
  simp [rotateRows, givens_mul_apply, Fin.ext_iff]

theorem of_rotateCols (p q : Fin nc) (c s : K) (A : TcMat K nr nc) :
    Matrix.of (rotateCols p q c s A) = Matrix.of A * (givens p q c s).transpose := by
  ext i j
  simp [rotateCols, mul_givens_transpose_apply, Fin.ext_iff]

theorem moveIndex_lt {i0 i1 k : Nat} (hi1 : i1 < nc) (hk : k < nc) : moveIndex i0 i1 k < nc := by
  unfold moveIndex
  split_ifs <;> omega

theorem moveIndex_injective {i0 i1 : Nat} (h : i0 ≤ i1) :
    Function.Injective (moveIndex i0 i1) := by
  intro k l hkl
  unfold moveIndex at hkl
  split_ifs at hkl <;> omega

/-- A move reorders the components. -/
theorem exists_moveEquiv {i0 i1 : Nat} (h : i0 ≤ i1) (hi1 : i1 < nc) :
    ∃ σ : Equiv.Perm (Fin nc), ∀ k, (σ k).val = moveIndex i0 i1 k := by
  let f : Fin nc → Fin nc := fun k => ⟨moveIndex i0 i1 k, moveIndex_lt hi1 k.isLt⟩
  have hf : Function.Injective f := by
    intro k l hkl
    exact Fin.ext (moveIndex_injective h (Fin.mk.inj hkl))
  exact ⟨Equiv.ofBijective f (Finite.injective_iff_bijective.mp hf), fun k => rfl⟩

end Products

/-! ## Steps that keep the product -/

/-- The move of `i1` to `i0` is the same for the three matrices: what it writes to an entry of
`D` is what belongs there, and the rows of `U` that it does not reach have equal entries. -/
structure MoveOk (i0 i1 : Nat) (U : TcMat K nr nc) (D : TcMat K nc nc) : Prop where
  entries : ∀ i j : Fin nc, entry D (moveSource nc i0 i1 i j).1 (moveSource nc i0 i1 i j).2 =
    entry D (moveIndex i0 i1 i) (moveIndex i0 i1 j)
  below : ∀ (i : Fin nr) (j : Fin nc), nc ≤ i.val → entry U i (moveIndex i0 i1 j) = U i j

/-- The condition on a step: moves are the same for the three matrices, and a rotation has a
length to divide by. -/
def StepOk (s : SvdState K nr nc) : Prop :=
  match s.pc with
  | .chase i1 i => i + 1 < nc → entry s.D i1 (i + 1) ≠ 0 ∨ entry s.D (i + 1) (i + 1) ≠ 0
  | .move i1 => MoveOk s.i0 i1 s.U s.D
  | .sweep i1 i alpha beta => i < i1 → alpha ≠ 0 ∨ beta ≠ 0
  | _ => True

/-- The positions are those of the source. -/
def PcOk (s : SvdState K nr nc) : Prop :=
  match s.pc with
  | .diag i1 => s.i0 ≤ i1
  | .chase i1 i => s.i0 ≤ i1 ∧ i1 ≤ i ∧ i1 + 1 < nc
  | .move i1 => s.i0 ≤ i1 ∧ i1 < nc
  | .super i => s.i0 ≤ i
  | .sweep i1 _ _ _ => i1 < nc
  | _ => True

/-- The three matrices decompose the matrix that was given. -/
def SvdState.Decomposes (A : TcMat K nr nc) (s : SvdState K nr nc) : Prop :=
  Householder.Decomposes (Matrix.of A) (Matrix.of s.U) (Matrix.of s.D) (Matrix.of s.V)

section Ordered

variable [IsStrictOrderedRing K] {R : SquareRoot K} {A : TcMat K nr nc} {s : SvdState K nr nc}

/-- The root of a sum of two squares that is not zero. -/
theorem sqrt_ne_zero {alpha beta : K} (h : alpha ≠ 0 ∨ beta ≠ 0) :
    R.sqrt (alpha * alpha + beta * beta) ≠ 0 := by
  intro hzero
  have hnonneg : 0 ≤ alpha * alpha + beta * beta :=
    add_nonneg (mul_self_nonneg alpha) (mul_self_nonneg beta)
  have hroot := R.sqrt_mul_self _ hnonneg
  rw [hzero, mul_zero] at hroot
  rcases h with h | h
  · have hpos := mul_self_pos.mpr h
    linarith [mul_self_nonneg beta]
  · have hpos := mul_self_pos.mpr h
    linarith [mul_self_nonneg alpha]

/-- A pair that is not zero, divided by its length, is a rotation. -/
theorem rotation_unit {alpha beta : K} (h : alpha ≠ 0 ∨ beta ≠ 0) :
    alpha / R.sqrt (alpha * alpha + beta * beta) * (alpha / R.sqrt (alpha * alpha + beta * beta)) +
      beta / R.sqrt (alpha * alpha + beta * beta) * (beta / R.sqrt (alpha * alpha + beta * beta)) =
        1 := by
  have hnonneg : 0 ≤ alpha * alpha + beta * beta :=
    add_nonneg (mul_self_nonneg alpha) (mul_self_nonneg beta)
  exact div_mul_div_add (R.sqrt_mul_self _ hnonneg) (sqrt_ne_zero h)

theorem rotation_unit_neg {alpha beta : K} (h : alpha ≠ 0 ∨ beta ≠ 0) :
    alpha / R.sqrt (alpha * alpha + beta * beta) * (alpha / R.sqrt (alpha * alpha + beta * beta)) +
      -beta / R.sqrt (alpha * alpha + beta * beta) *
        (-beta / R.sqrt (alpha * alpha + beta * beta)) = 1 := by
  rw [neg_div, neg_mul_neg]
  exact rotation_unit h

omit [LinearOrder K] [IsStrictOrderedRing K] in
/-- A rotation of the rows of `D` and the columns of `U`. -/
theorem decomposes_rotate_left (h : s.Decomposes A) {p q : Nat} (hp : p < nc) (hq : q < nc)
    (hne : p ≠ q) {c t : K} (hct : c * c + t * t = 1) :
    Householder.Decomposes (Matrix.of A) (Matrix.of (rotateCols p q c t s.U))
      (Matrix.of (rotateRows p q c t s.D)) (Matrix.of s.V) := by
  have hU := of_rotateCols (⟨p, hp⟩ : Fin nc) ⟨q, hq⟩ c t s.U
  have hD := of_rotateRows (⟨p, hp⟩ : Fin nc) ⟨q, hq⟩ c t s.D
  have hne' : (⟨p, hp⟩ : Fin nc) ≠ ⟨q, hq⟩ := fun h => hne (Fin.mk.inj h)
  rw [hU, hD]
  exact h.mul_left (isOrthogonal_givens hne' hct)

omit [LinearOrder K] [IsStrictOrderedRing K] in
/-- A rotation of the columns of `D` and the rows of `V`. -/
theorem decomposes_rotate_right (h : s.Decomposes A) {p q : Nat} (hp : p < nc) (hq : q < nc)
    (hne : p ≠ q) {c t : K} (hct : c * c + t * t = 1) :
    Householder.Decomposes (Matrix.of A) (Matrix.of s.U)
      (Matrix.of (rotateCols p q c t s.D)) (Matrix.of (rotateRows p q c t s.V)) := by
  have hV := of_rotateRows (⟨p, hp⟩ : Fin nc) ⟨q, hq⟩ c t s.V
  have hD := of_rotateCols (⟨p, hp⟩ : Fin nc) ⟨q, hq⟩ c t s.D
  have hne' : (⟨p, hp⟩ : Fin nc) ≠ ⟨q, hq⟩ := fun h => hne (Fin.mk.inj h)
  rw [hV, hD]
  exact h.mul_right (isOrthogonal_givens hne' hct)

omit [LinearOrder K] in
/-- `entry`, at the positions of a reordering. -/
theorem entry_eq {n m : Nat} (B : TcMat K n m) {i : Fin n} {j : Fin m} {k l : Nat} (hk : i.val = k)
    (hl : j.val = l) : entry B k l = B i j := by
  subst hk hl
  exact entry_val B i j

omit [LinearOrder K] [IsStrictOrderedRing K] in
/-- A move that is the same for the three matrices. -/
theorem moveStep_decomposes {i1 : Nat} (h : s.Decomposes A) (hi : s.i0 ≤ i1) (hi1 : i1 < nc)
    (hok : MoveOk s.i0 i1 s.U s.D) : (moveStep i1 s).Decomposes A := by
  obtain ⟨σ, hσ⟩ := exists_moveEquiv hi hi1
  have hU : Matrix.of (moveCols s.i0 i1 s.U) = (Matrix.of s.U).submatrix id σ := by
    ext i j
    by_cases hrow : i.val < nc
    · simpa [moveCols, hrow] using entry_eq s.U rfl (hσ j)
    · have hbelow := hok.below i j (not_lt.mp hrow)
      rw [entry_eq s.U rfl (hσ j)] at hbelow
      simpa [moveCols, hrow] using hbelow.symm
  have hD : Matrix.of (moveDiag s.i0 i1 s.D) = (Matrix.of s.D).submatrix σ σ := by
    ext i j
    exact (hok.entries i j).trans (entry_eq s.D (hσ i) (hσ j))
  have hV : Matrix.of (moveRows s.i0 i1 s.V) = (Matrix.of s.V).submatrix σ id := by
    ext i j
    exact entry_eq s.V (hσ i) rfl
  have hmove := Householder.Decomposes.reindex h σ
  rw [← hU, ← hD, ← hV] at hmove
  exact hmove

omit [LinearOrder K] [IsStrictOrderedRing K] in
/-- Of a square matrix, no other move keeps the product. -/
theorem moveStep_decomposes_iff {i1 : Nat} (hle : nr ≤ nc) (h : s.Decomposes A) (hi : s.i0 ≤ i1)
    (hi1 : i1 < nc) : (moveStep i1 s).Decomposes A ↔ MoveOk s.i0 i1 s.U s.D := by
  refine ⟨fun hmoved => ?_, moveStep_decomposes h hi hi1⟩
  obtain ⟨σ, hσ⟩ := exists_moveEquiv hi hi1
  have hU : Matrix.of (moveCols s.i0 i1 s.U) = (Matrix.of s.U).submatrix id σ := by
    ext i j
    have hrow : i.val < nc := lt_of_lt_of_le i.isLt hle
    simpa [moveCols, hrow] using entry_eq s.U rfl (hσ j)
  have hV : Matrix.of (moveRows s.i0 i1 s.V) = (Matrix.of s.V).submatrix σ id := by
    ext i j
    exact entry_eq s.V (hσ i) rfl
  have hmove := Householder.Decomposes.reindex h σ
  rw [← hU, ← hV] at hmove
  have hD : (Matrix.of s.D).submatrix σ σ = Matrix.of (moveDiag s.i0 i1 s.D) :=
    hmove.unique hmoved
  refine ⟨fun i j => ?_, fun i j hrow => absurd (lt_of_lt_of_le i.isLt hle) (not_lt.mpr hrow)⟩
  have hentry := congrFun (congrFun hD i) j
  exact hentry.symm.trans (entry_eq s.D (hσ i) (hσ j)).symm

theorem chaseStep_decomposes {i1 i : Nat} (h : s.Decomposes A) (hi : i1 ≤ i)
    (hok : i + 1 < nc → entry s.D i1 (i + 1) ≠ 0 ∨ entry s.D (i + 1) (i + 1) ≠ 0) :
    (chaseStep R 0 i1 i s).Decomposes A := by
  unfold chaseStep
  split_ifs with hlt
  · dsimp only
    rw [if_neg (not_lt.mpr (abs_nonneg _))]
    refine decomposes_rotate_left h (by omega) hlt (by omega) ?_
    rw [add_comm]
    exact rotation_unit (hok hlt)
  · exact h

theorem sweepRight_decomposes {i : Nat} {alpha beta : K} (h : s.Decomposes A) (hi : i + 1 < nc)
    (hok : alpha ≠ 0 ∨ beta ≠ 0) : (sweepRight R i alpha beta s).Decomposes A := by
  exact decomposes_rotate_right h (by omega) hi (by omega) (rotation_unit_neg hok)

theorem sweepLeft_decomposes {i : Nat} (h : s.Decomposes A) (hi : i + 1 < nc) :
    (sweepLeft R i s).Decomposes A := by
  unfold sweepLeft
  dsimp only
  split_ifs with hgamma
  · have hok : entry s.D i i ≠ 0 ∨ entry s.D (i + 1) i ≠ 0 := by
      by_contra hzero
      push Not at hzero
      have hroot := R.sqrt_mul_self 0 le_rfl
      simp [hzero, mul_self_eq_zero.mp hroot] at hgamma
    exact decomposes_rotate_left h (by omega) hi (by omega) (rotation_unit_neg hok)
  · exact h

theorem sweepStep_decomposes {i1 i : Nat} {alpha beta : K} (h : s.Decomposes A) (hi1 : i1 < nc)
    (hok : i < i1 → alpha ≠ 0 ∨ beta ≠ 0) : (sweepStep R i1 i alpha beta s).Decomposes A := by
  unfold sweepStep
  by_cases hlt : i < i1
  · have hi : i + 1 < nc := by omega
    have hright := sweepRight_decomposes (R := R) h hi (hok hlt)
    have hleft := sweepLeft_decomposes (R := R) hright hi
    rw [if_pos hlt]
    dsimp only
    split_ifs
    · exact hleft
    · exact hleft
  · rw [if_neg hlt]
    exact h

/-- **One step**: the product is kept. -/
theorem svdStep_decomposes {threshold : K} (h : s.Decomposes A) (hpc : PcOk s) (hok : StepOk s) :
    (svdStep R threshold 0 s).Decomposes A := by
  obtain ⟨U, D, V, i0, iter, pc⟩ := s
  cases pc with
  | head =>
    simp only [svdStep]
    split_ifs <;> exact h
  | diag i1 =>
    simp only [svdStep, diagStep]
    split_ifs <;> exact h
  | chase i1 i => exact chaseStep_decomposes h hpc.2.1 hok
  | move i1 => exact moveStep_decomposes h hpc.1 hpc.2 hok
  | super i =>
    -- no absolute value is below zero
    simp only [svdStep, superStep, ge_iff_le, abs_nonneg, if_true]
    split_ifs <;> exact h
  | check =>
    simp only [svdStep, checkStep]
    split_ifs <;> exact h
  | sweep i1 i alpha beta => exact sweepStep_decomposes h hpc hok
  | done => exact h

omit [IsStrictOrderedRing K] in
theorem blockEnd_lt {zero : K} {D : TcMat K nc nc} (n i1 : Nat) (h : i1 < nc) :
    blockEnd zero D n i1 < nc := by
  induction n generalizing i1 with
  | zero => exact h
  | succ n ih =>
    rw [blockEnd]
    split_ifs with hlt
    · exact h
    · exact ih (i1 + 1) hlt
    · exact h

omit [IsStrictOrderedRing K] in
theorem svdStep_pcOk {threshold zero : K} (hpc : PcOk s) : PcOk (svdStep R threshold zero s) := by
  obtain ⟨U, D, V, i0, iter, pc⟩ := s
  cases pc with
  | head =>
    simp only [svdStep]
    split_ifs <;> simp [PcOk, SvdState.goto]
  | diag i1 =>
    simp only [PcOk] at hpc
    simp only [svdStep, diagStep]
    split_ifs <;> simp [PcOk, SvdState.goto] <;> omega
  | chase i1 i =>
    simp only [PcOk] at hpc
    simp only [svdStep, chaseStep]
    split_ifs <;> simp [PcOk, SvdState.goto] <;> omega
  | move i1 =>
    simp only [PcOk] at hpc
    simp only [svdStep, moveStep, PcOk]
    omega
  | super i =>
    simp only [PcOk] at hpc
    simp only [svdStep, superStep]
    split_ifs <;> simp [PcOk, SvdState.goto] <;> omega
  | check =>
    simp only [svdStep, checkStep]
    split_ifs with hend
    · trivial
    · trivial
    · exact blockEnd_lt nc i0 (by omega)
  | sweep i1 i alpha beta =>
    simp only [PcOk] at hpc
    simp only [svdStep, sweepStep]
    split_ifs <;> simp [PcOk, SvdState.goto, hpc]
  | done => trivial

/-! ## Runs -/

/-- A bidiagonal matrix ends with zero rows, so the columns of `U` that are dropped do not
count. -/
theorem svdStart_decomposes (R : SquareRoot K) (A : TcMat K nr nc) (hle : nc ≤ nr) :
    (svdStart R A).Decomposes A := by
  obtain ⟨hU, hV, hproduct, hband⟩ := tcMatBidiagDecomp_bidiagonal R A hle
  let e : Fin nc → Fin nr := Fin.castLE hle
  have he : Function.Injective e := Fin.castLE_injective hle
  have hcols : Matrix.of (svdStart R A).U =
      (Matrix.of (tcMatBidiagDecomp R A).U).submatrix id e := by
    ext i j
    exact entry_val _ i (e j)
  have hrows : Matrix.of (svdStart R A).D =
      (Matrix.of (tcMatBidiagDecomp R A).B).submatrix e id := by
    ext i j
    exact entry_val _ (e i) j
  refine ⟨?_, hV, ?_⟩
  · rw [hcols, OrthonormalColumns, Matrix.transpose_submatrix,
      ← Matrix.submatrix_mul _ _ e id e Function.bijective_id, hU.columns,
      Matrix.submatrix_one e he]
  · have hdrop : Matrix.of (svdStart R A).U * Matrix.of (svdStart R A).D =
        Matrix.of (tcMatBidiagDecomp R A).U * Matrix.of (tcMatBidiagDecomp R A).B := by
      rw [hcols, hrows]
      ext i j
      simp only [Matrix.mul_apply, Matrix.submatrix_apply, Matrix.of_apply, id]
      refine Fintype.sum_of_injective e he _ _ ?_ fun k => rfl
      intro k hk
      have hlt : nc ≤ k.val := by
        by_contra hlt
        exact hk ⟨⟨k, not_le.mp hlt⟩, rfl⟩
      have hj := j.isLt
      rw [hband k j (by omega) (by omega), mul_zero]
    have hthree := congrArg Matrix.of hproduct
    simp only [of_tcMatMult] at hthree
    rw [hdrop]
    exact hthree

omit [IsStrictOrderedRing K] in
theorem svdRun_succ (R : SquareRoot K) (zero : K) (A : TcMat K nr nc) (n : Nat) :
    svdRun R zero A (n + 1) =
      svdStep R (svdThreshold (svdStart R A).D) zero (svdRun R zero A n) :=
  Function.iterate_succ_apply' _ n _

omit [IsStrictOrderedRing K] in
theorem svdRun_pcOk (R : SquareRoot K) (zero : K) (A : TcMat K nr nc) (n : Nat) :
    PcOk (svdRun R zero A n) := by
  induction n with
  | zero => trivial
  | succ n ih =>
    rw [svdRun_succ]
    exact svdStep_pcOk ih

/-- **The invariant of the main loop**: as long as every step meets its condition, the
product is the matrix, `U` has orthonormal columns and `V` is orthogonal. -/
theorem svdRun_decomposes (R : SquareRoot K) (A : TcMat K nr nc) (hle : nc ≤ nr) (n : Nat)
    (hok : ∀ k < n, StepOk (svdRun R 0 A k)) : (svdRun R 0 A n).Decomposes A := by
  induction n with
  | zero => exact svdStart_decomposes R A hle
  | succ n ih =>
    rw [svdRun_succ]
    have hrun := ih fun k hk => hok k (Nat.lt_succ_of_lt hk)
    exact svdStep_decomposes hrun (svdRun_pcOk R 0 A n) (hok n (Nat.lt_succ_self n))

end Ordered

/-! ## A move that loses the product -/

/-- A matrix of rank two. -/
def stuckMatrix : TcMat ℝ 3 3 := ![![1, 1, 0], ![0, 0, 1], ![0, 0, 0]]

theorem signedRoot_one : signedRoot realSqrt 1 1 = -1 := by
  simp [signedRoot, realSqrt]

theorem signedRoot_neg_one : signedRoot realSqrt (-1) 1 = 1 := by
  have h : ¬(1 : ℝ) < 0 := by norm_num
  simp [signedRoot, realSqrt]

/-- The reflection from the left only changes the sign of the first row, -/
theorem fromLeft_stuck : fromLeft realSqrt 0 ⟨tcMatIdentity, stuckMatrix, tcMatIdentity⟩ =
    ⟨![![-1, 0, 0], ![0, 1, 0], ![0, 0, 1]], ![![-1, -1, 0], ![0, 0, 1], ![0, 0, 0]],
      tcMatIdentity⟩ := by
  have hcol : ∀ i : Fin 3, entry stuckMatrix i 0 = (![1, 0, 0] : Fin 3 → ℝ) i := by
    intro i
    fin_cases i <;> simp [entry, stuckMatrix]
  have hpivot : entry stuckMatrix 0 0 = 1 := hcol 0
  have hsum : (sumLoopFrom 0 fun i : Fin 3 =>
      (![1, 0, 0] : Fin 3 → ℝ) i * (![1, 0, 0] : Fin 3 → ℝ) i) = 1 := by
    simp [Fin.sum_univ_three]
  simp only [fromLeft, hcol, hpivot, hsum, signedRoot_one]
  rw [if_pos one_ne_zero]
  congr 1 <;> ext i j <;> fin_cases i <;> fin_cases j <;>
    simp [tcMatMult, Fin.sum_univ_three, tcMatIdentity, reflectMat, reflectVector, tcMatAdd,
      tcMatMultScalar, tcMatTranspose, stuckMatrix] <;> norm_num

/-- and the one from the right the sign of the second column. -/
theorem fromRight_stuck : fromRight realSqrt 0
      ⟨![![-1, 0, 0], ![0, 1, 0], ![0, 0, 1]], ![![-1, -1, 0], ![0, 0, 1], ![0, 0, 0]],
        tcMatIdentity⟩ =
    ⟨![![-1, 0, 0], ![0, 1, 0], ![0, 0, 1]], ![![-1, 1, 0], ![0, 0, 1], ![0, 0, 0]],
      ![![1, 0, 0], ![0, -1, 0], ![0, 0, 1]]⟩ := by
  have hrow : ∀ j : Fin 3, entry ![![-1, -1, 0], ![0, 0, 1], ![0, 0, 0]] 0 j =
      (![-1, -1, 0] : Fin 3 → ℝ) j := by
    intro j
    fin_cases j <;> simp [entry]
  have hpivot : entry (![![-1, -1, 0], ![0, 0, 1], ![0, 0, 0]] : TcMat ℝ 3 3) 0 (0 + 1) = -1 :=
    hrow 1
  have hsum : (sumLoopFrom (0 + 1) fun i : Fin 3 =>
      (![-1, -1, 0] : Fin 3 → ℝ) i * (![-1, -1, 0] : Fin 3 → ℝ) i) = 1 := by
    simp [Finset.sum_filter, Fin.sum_univ_three]
  simp only [fromRight, hrow, hpivot, hsum, signedRoot_neg_one]
  rw [if_pos (by norm_num), if_pos one_ne_zero]
  congr 1 <;> ext i j <;> fin_cases i <;> fin_cases j <;>
    simp [tcMatMult, Fin.sum_univ_three, tcMatIdentity, reflectMat, reflectVector, tcMatAdd,
      tcMatMultScalar, tcMatTranspose]

theorem tcMatBidiagDecomp_stuck : tcMatBidiagDecomp realSqrt stuckMatrix =
    ⟨![![-1, 0, 0], ![0, 1, 0], ![0, 0, 1]], ![![-1, 1, 0], ![0, 0, 1], ![0, 0, 0]],
      ![![1, 0, 0], ![0, -1, 0], ![0, 0, 1]]⟩ := by
  have hcol : ∀ i : Fin 3, entry ![![-1, 1, 0], ![0, 0, 1], ![0, 0, 0]] i 1 =
      (![1, 0, 0] : Fin 3 → ℝ) i := by
    intro i
    fin_cases i <;> simp [entry]
  have hsum : (sumLoopFrom 1 fun i : Fin 3 =>
      (![1, 0, 0] : Fin 3 → ℝ) i * (![1, 0, 0] : Fin 3 → ℝ) i) = 0 := by
    simp [Finset.sum_filter, Fin.sum_univ_three]
  rw [tcMatBidiagDecomp]
  have hleft : fromLeft realSqrt 1
      ⟨![![-1, 0, 0], ![0, 1, 0], ![0, 0, 1]], ![![-1, 1, 0], ![0, 0, 1], ![0, 0, 0]],
      ![![1, 0, 0], ![0, -1, 0], ![0, 0, 1]]⟩ = ⟨![![-1, 0, 0], ![0, 1, 0], ![0, 0, 1]],
        ![![-1, 1, 0], ![0, 0, 1], ![0, 0, 0]], ![![1, 0, 0], ![0, -1, 0], ![0, 0, 1]]⟩ := by
    simp only [fromLeft, hcol, hsum, ne_eq, not_true_eq_false, if_false]
  simp only [bidiagLoop, fromLeft_stuck, fromRight_stuck]
  simp [hleft, fromRight]

/-- The state before the main loop. -/
def stuckStart : SvdState ℝ 3 3 where
  U := ![![-1, 0, 0], ![0, 1, 0], ![0, 0, 1]]
  D := ![![-1, 1, 0], ![0, 0, 1], ![0, 0, 0]]
  V := ![![1, 0, 0], ![0, -1, 0], ![0, 0, 1]]
  i0 := 0
  iter := 0
  pc := .head

/-- The zero at the second place of the diagonal is chased in one rotation. -/
def stuckChased : SvdState ℝ 3 3 where
  U := ![![-1, 0, 0], ![0, 0, 1], ![0, -1, 0]]
  D := ![![-1, 1, 0], ![0, 0, 0], ![0, 0, 1]]
  V := ![![1, 0, 0], ![0, -1, 0], ![0, 0, 1]]
  i0 := 0
  iter := 0
  pc := .chase 1 2

/-- After the move of the last component. -/
def stuckMoved : SvdState ℝ 3 3 where
  U := ![![0, -1, 0], ![1, 0, 0], ![0, 0, -1]]
  D := ![![1, 1, 1], ![0, -1, 1], ![0, 0, 0]]
  V := ![![0, 0, 1], ![1, 0, 0], ![0, -1, 0]]
  i0 := 1
  iter := 0
  pc := .diag 3

theorem svdStart_stuck : svdStart realSqrt stuckMatrix = stuckStart := by
  rw [svdStart, tcMatBidiagDecomp_stuck]
  unfold stuckStart
  congr 1 <;> funext i j <;> exact entry_val _ i j

theorem svdThreshold_stuck : svdThreshold stuckStart.D = 1 / 10 ^ 12 := by
  norm_num [svdThreshold, stuckStart, List.range_succ, entry]

/-- The steps up to the rotation. -/
theorem svdRun_stuck : svdRun realSqrt 0 stuckMatrix 0 = stuckStart ∧
    svdRun realSqrt 0 stuckMatrix 1 = stuckStart.goto (.diag 0) ∧
    svdRun realSqrt 0 stuckMatrix 2 = stuckStart.goto (.diag 1) ∧
    svdRun realSqrt 0 stuckMatrix 3 = stuckStart.goto (.chase 1 1) ∧
    svdRun realSqrt 0 stuckMatrix 4 = stuckChased := by
  have h0 : svdRun realSqrt 0 stuckMatrix 0 = stuckStart := svdStart_stuck
  have h1 : ∀ t : ℝ, svdStep realSqrt t 0 stuckStart = stuckStart.goto (.diag 0) := by
    intro t
    simp [svdStep, stuckStart, SvdState.goto]
  have h2 : ∀ t : ℝ, svdStep realSqrt t 0 (stuckStart.goto (.diag 0)) =
      stuckStart.goto (.diag 1) := by
    intro t
    simp [svdStep, diagStep, stuckStart, SvdState.goto, entry]
  have h3 : ∀ t : ℝ, svdStep realSqrt t 0 (stuckStart.goto (.diag 1)) =
      stuckStart.goto (.chase 1 1) := by
    intro t
    simp [svdStep, diagStep, stuckStart, SvdState.goto, entry]
  have h4 : ∀ t : ℝ, svdStep realSqrt t 0 (stuckStart.goto (.chase 1 1)) = stuckChased := by
    intro t
    have hsqrt : realSqrt.sqrt 1 = 1 := by simp [realSqrt]
    have hlt : ¬(1 : ℝ) < 0 := by norm_num
    simp only [svdStep, chaseStep, SvdState.goto, stuckChased]
    simp [stuckStart, hsqrt, hlt, entry]
    constructor <;> ext i j <;> fin_cases i <;> fin_cases j <;>
      simp [rotateCols, rotateRows, entry]
  simp only [svdRun_succ _ _ _ 0, svdRun_succ _ _ _ 1, svdRun_succ _ _ _ 2, svdRun_succ _ _ _ 3,
    h0, h1, h2, h3, h4, and_self]

/-- The rotation keeps the product of the example. -/
theorem svdRun_decomposes_stuck : (svdRun realSqrt 0 stuckMatrix 5).Decomposes stuckMatrix := by
  obtain ⟨h0, h1, h2, h3, h4⟩ := svdRun_stuck
  refine svdRun_decomposes realSqrt stuckMatrix (by decide) 5 ?_
  intro k hk
  interval_cases k
  · rw [h0]
    trivial
  · rw [h1]
    trivial
  · rw [h2]
    trivial
  · rw [h3]
    exact fun _ => Or.inl (by simp [stuckStart, SvdState.goto, entry])
  · rw [h4]
    exact fun h => absurd h (by decide)

theorem svdRun_moved : svdRun realSqrt 0 stuckMatrix 6 = stuckMoved := by
  have h5 : ∀ t : ℝ, svdStep realSqrt t 0 stuckChased = stuckChased.goto (.move 2) := by
    intro t
    simp [svdStep, chaseStep, stuckChased]
  have h6 : ∀ t : ℝ, svdStep realSqrt t 0 (stuckChased.goto (.move 2)) = stuckMoved := by
    intro t
    simp only [svdStep, SvdState.goto, moveStep, stuckChased, stuckMoved]
    congr 1 <;> ext i j <;> fin_cases i <;> fin_cases j <;>
      simp [moveCols, moveDiag, moveRows, moveSource, moveIndex, entry]
  simp only [svdRun_succ _ _ _ 5, svdRun_succ _ _ _ 4, svdRun_stuck.2.2.2.2, h5, h6]

/-- The sweep starts when neither test ends the loop. -/
theorem checkStep_sweep {R : SquareRoot K} {threshold zero : K} {s : SvdState K nr nc}
    (hi0 : ¬s.i0 ≥ nc - 1) (hlarge : ¬largestOffDiag s.D s.i0 < threshold) :
    checkStep R threshold zero s = s.goto (.sweep (blockEnd zero s.D nc s.i0) s.i0
      (entry s.D s.i0 s.i0 * entry s.D s.i0 s.i0 -
        tcMatWilkinsonShift R (shiftBlock s.D (blockEnd zero s.D nc s.i0)))
      (entry s.D s.i0 s.i0 * entry s.D s.i0 (s.i0 + 1))) := by
  rw [checkStep, if_neg hi0, if_neg hlarge]

/-- Then the rest is swept. -/
theorem svdRun_swept : ∃ alpha, svdRun realSqrt 0 stuckMatrix 10 =
    stuckMoved.goto (.sweep 2 1 alpha (-1)) := by
  have h7 : ∀ t : ℝ, svdStep realSqrt t 0 stuckMoved = stuckMoved.goto (.super 1) := by
    intro t
    simp [svdStep, diagStep, stuckMoved, SvdState.goto]
  have h8 : ∀ t : ℝ, svdStep realSqrt t 0 (stuckMoved.goto (.super 1)) =
      stuckMoved.goto (.super 2) := by
    intro t
    simp [svdStep, superStep, stuckMoved, SvdState.goto]
  have h9 : ∀ t : ℝ, svdStep realSqrt t 0 (stuckMoved.goto (.super 2)) =
      stuckMoved.goto .check := by
    intro t
    simp [svdStep, superStep, stuckMoved, SvdState.goto]
  have hlargest : largestOffDiag stuckMoved.D 1 = 1 := by
    simp [largestOffDiag, stuckMoved, List.range_succ, entry]
  have hlt : ¬largestOffDiag stuckMoved.D 1 < svdThreshold stuckStart.D := by
    rw [hlargest, svdThreshold_stuck]
    norm_num
  refine ⟨entry stuckMoved.D 1 1 * entry stuckMoved.D 1 1 -
    tcMatWilkinsonShift realSqrt (shiftBlock stuckMoved.D 2), ?_⟩
  simp only [svdRun_succ _ _ _ 9, svdRun_succ _ _ _ 8, svdRun_succ _ _ _ 7, svdRun_succ _ _ _ 6,
    svdRun_moved, svdStart_stuck, h7, h8, h9]
  have hend : blockEnd 0 stuckMoved.D 3 1 = 2 := by
    simp [blockEnd]
  have hbeta : entry stuckMoved.D 1 1 * entry stuckMoved.D 1 2 = -1 := by
    simp [stuckMoved, entry]
  have hsweep : checkStep realSqrt (svdThreshold stuckStart.D) 0 (stuckMoved.goto .check) =
      stuckMoved.goto (.sweep (blockEnd 0 stuckMoved.D 3 1) 1
        (entry stuckMoved.D 1 1 * entry stuckMoved.D 1 1 -
          tcMatWilkinsonShift realSqrt (shiftBlock stuckMoved.D (blockEnd 0 stuckMoved.D 3 1)))
        (entry stuckMoved.D 1 1 * entry stuckMoved.D 1 2)) :=
    checkStep_sweep (by simp [stuckMoved, SvdState.goto]) hlt
  rw [hend, hbeta] at hsweep
  exact hsweep

/-- The product after the move. -/
def stuckProduct : TcMat ℝ 3 3 := ![![1, 1, 0], ![1, -1, 1], ![0, 0, 0]]

theorem stuckMoved_decomposes : stuckMoved.Decomposes stuckProduct where
  left := by
    ext i j
    fin_cases i <;> fin_cases j <;> simp [stuckMoved, Matrix.mul_apply, Fin.sum_univ_three]
  right := by
    refine isOrthogonal_of_columns ?_
    ext i j
    fin_cases i <;> fin_cases j <;> simp [stuckMoved, Matrix.mul_apply, Fin.sum_univ_three]
  product := by
    ext i j
    fin_cases i <;> fin_cases j <;>
      simp [stuckMoved, stuckProduct, Matrix.mul_apply, Fin.sum_univ_three]

/-- **The loop invariant fails**: the head of the second iteration is reached with another
product. -/
theorem stuckMatrix_not_decomposes : (svdRun realSqrt 0 stuckMatrix 12).pc = .head ∧
    ¬(svdRun realSqrt 0 stuckMatrix 12).Decomposes stuckMatrix := by
  obtain ⟨alpha, hswept⟩ := svdRun_swept
  have h10 : (svdRun realSqrt 0 stuckMatrix 10).Decomposes stuckProduct := by
    rw [hswept]
    exact stuckMoved_decomposes
  have h11 : (svdRun realSqrt 0 stuckMatrix 11).Decomposes stuckProduct := by
    rw [svdRun_succ]
    refine svdStep_decomposes h10 (svdRun_pcOk _ _ _ 10) ?_
    rw [hswept]
    exact fun _ => Or.inr (by norm_num)
  have hpc : ∃ alpha beta, (svdRun realSqrt 0 stuckMatrix 11).pc = .sweep 2 2 alpha beta := by
    rw [svdRun_succ, hswept]
    exact ⟨_, _, rfl⟩
  obtain ⟨alpha', beta', hpc⟩ := hpc
  have hlast : ∀ s : SvdState ℝ 3 3, s.pc = .sweep 2 2 alpha' beta' → ∀ t : ℝ,
      svdStep realSqrt t 0 s = { s with iter := s.iter + 1, pc := .head } := by
    intro s hs t
    simp [svdStep, hs, sweepStep]
  rw [svdRun_succ, hlast _ hpc]
  refine ⟨rfl, ?_⟩
  intro h
  have hsame : Matrix.of stuckProduct = Matrix.of stuckMatrix := h11.product.symm.trans h.product
  have hentry := congrFun (congrFun hsame 1) 0
  simp [stuckProduct, stuckMatrix] at hentry

end Hivemind
