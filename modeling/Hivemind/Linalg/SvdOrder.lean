import Mathlib
import Hivemind.Linalg.Svd

/-!
# The order of the singular values

The end of `tc_mat_svd`: a selection sort of the diagonal by absolute value, which swaps the rows
of `V` and the columns of `U` along, and makes negative entries positive.

The loop over the rows ends with the rows of `D`, so the rows of a taller `U` are not swapped
there, and the loop over the diagonal ends before its last entry, which keeps its sign.

The selection itself is an arrangement of the indices, found by the loop from the entries alone;
what the loop does to the three matrices is that arrangement and the signs.  So the sort and the
product are looked at apart: the first is right always, up to the sign of the last entry, and the
second where the rows that were not swapped do not matter.

* `arrange_sorted`: the order that the selection finds.
* `orderLoop_arranged`: what the loop leaves of the three matrices.
* `ordersRight_iff`: **when the values are nonnegative and decreasing** and the product is kept.
-/

namespace Hivemind

open Weighted Finset Householder

variable {K : Type} [Field K] [LinearOrder K] {nr nc : Nat}

/-! ## The program -/

/-- `largest_i`, from `i` on. -/
def largestFrom (a : Nat → K) (n i : Nat) : Nat :=
  ((List.range' (i + 1) (n - (i + 1))).foldl (fun best j =>
    if |a j| > best.1 then (|a j|, j) else best) (|a i|, i)).2

/-- The swap of two rows of `V`. -/
def swapRows (p q : Nat) (V : TcMat K nc nc) : TcMat K nc nc :=
  fun i j => entry V (Equiv.swap p q i) j

/-- The swap of two columns of `U`; the loop over its rows ends with the rows of `D`. -/
def swapCols (p q : Nat) (U : TcMat K nr nc) : TcMat K nr nc :=
  fun i j => if i.val < nc then entry U i (Equiv.swap p q j) else U i j

/-- The swap of two entries of the diagonal. -/
def swapDiag (p q : Nat) (D : TcMat K nc nc) : TcMat K nc nc := fun i j =>
  if i = j then entry D (Equiv.swap p q i) (Equiv.swap p q i) else D i j

/-- The larger component is brought to `i`. -/
def orderSwap (i : Nat) (s : SvdState K nr nc) : SvdState K nr nc :=
  let largest_i := largestFrom (fun j => entry s.D j j) nc i
  if largest_i ≠ i then
    { s with
      U := swapCols i largest_i s.U
      D := swapDiag i largest_i s.D
      V := swapRows i largest_i s.V }
  else s

/-- A negative entry and its row of `V` change sign. -/
def orderSign (i : Nat) (s : SvdState K nr nc) : SvdState K nr nc :=
  if entry s.D i i < 0 then
    { s with
      D := fun k j => if k.val = i ∧ j.val = i then -s.D k j else s.D k j
      V := fun k j => if k.val = i then -s.V k j else s.V k j }
  else s

/-- The loop up to `n`. -/
def orderLoop (s : SvdState K nr nc) : Nat → SvdState K nr nc
  | 0 => s
  | i + 1 => orderSign i (orderSwap i (orderLoop s i))

/-- The loop runs to `i + 1 < D->nr`, and then the rest of `D` is cleared. -/
def orderPhase (s : SvdState K nr nc) : SvdState K nr nc :=
  let ordered := orderLoop s (nc - 1)
  { ordered with D := fun i j => if i ≠ j then 0 else ordered.D i j }

/-! ## The selection -/

/-- The order of the first `k` places: what ends at `i` comes from `arrange a n k i`. -/
def arrange (a : Nat → K) (n : Nat) : Nat → Equiv.Perm ℕ
  | 0 => 1
  | k + 1 =>
    arrange a n k * Equiv.swap k (largestFrom (fun j => a (arrange a n k j)) n k)

section Ordered

variable [IsStrictOrderedRing K]

omit [IsStrictOrderedRing K] in
theorem largestFrom_spec (a : Nat → K) {n i : Nat} (hi : i < n) :
    i ≤ largestFrom a n i ∧ largestFrom a n i < n ∧
      ∀ j, i ≤ j → j < n → |a j| ≤ |a (largestFrom a n i)| := by
  have hfold : ∀ m, i + 1 + m ≤ n →
      ∃ l, (List.range' (i + 1) m).foldl (fun best j =>
          if |a j| > best.1 then (|a j|, j) else best) (|a i|, i) = (|a l|, l) ∧
        i ≤ l ∧ l < i + 1 + m ∧ ∀ j, i ≤ j → j < i + 1 + m → |a j| ≤ |a l| := by
    intro m
    induction m with
    | zero =>
      intro _
      refine ⟨i, rfl, le_rfl, by omega, ?_⟩
      intro j hij hj
      obtain rfl : j = i := by omega
      exact le_rfl
    | succ m ih =>
      intro hm
      obtain ⟨l, hl, hil, hlm, hmax⟩ := ih (by omega)
      rw [List.range'_concat, List.foldl_append, hl]
      simp only [List.foldl_cons, List.foldl_nil, Nat.one_mul]
      split_ifs with hgt
      · refine ⟨i + 1 + m, rfl, by omega, by omega, ?_⟩
        intro j hij hj
        rcases Nat.lt_or_ge j (i + 1 + m) with hlt | hge
        · exact (hmax j hij hlt).trans (le_of_lt hgt)
        · obtain rfl : j = i + 1 + m := by omega
          exact le_rfl
      · refine ⟨l, rfl, hil, by omega, ?_⟩
        intro j hij hj
        rcases Nat.lt_or_ge j (i + 1 + m) with hlt | hge
        · exact hmax j hij hlt
        · obtain rfl : j = i + 1 + m := by omega
          exact not_lt.mp hgt
  obtain ⟨l, hl, hil, hln, hmax⟩ := hfold (n - (i + 1)) (by omega)
  have hlargest : largestFrom a n i = l := by rw [largestFrom, hl]
  rw [hlargest]
  exact ⟨hil, by omega, fun j hij hj => hmax j hij (by omega)⟩

/-- A swap of two places at or after `i` stays there. -/
theorem swap_mem {n i p q j : Nat} (hp : i ≤ p ∧ p < n) (hq : i ≤ q ∧ q < n) (hj : i ≤ j ∧ j < n) :
    i ≤ Equiv.swap p q j ∧ Equiv.swap p q j < n := by
  rcases eq_or_ne j p with rfl | hjp
  · rwa [Equiv.swap_apply_left]
  · rcases eq_or_ne j q with rfl | hjq
    · rwa [Equiv.swap_apply_right]
    · rwa [Equiv.swap_apply_of_ne_of_ne hjp hjq]

omit [IsStrictOrderedRing K] in
/-- The places below `n` are reordered among themselves. -/
theorem arrange_lt (a : Nat → K) {n k j : Nat} (hk : k ≤ n) (hj : j < n) : arrange a n k j < n := by
  induction k generalizing j with
  | zero => exact hj
  | succ k ih =>
    obtain ⟨hle, hlt, -⟩ := largestFrom_spec (fun j => a (arrange a n k j)) hk
    rw [arrange, Equiv.Perm.mul_apply]
    exact ih (by omega) (swap_mem ⟨Nat.zero_le _, hk⟩ ⟨Nat.zero_le _, hlt⟩ ⟨Nat.zero_le _, hj⟩).2

omit [IsStrictOrderedRing K] in
/-- **The first `k` places hold the largest entries**, in decreasing order. -/
theorem arrange_sorted (a : Nat → K) {n k i j : Nat} (hk : k ≤ n) (hi : i < k) (hij : i ≤ j)
    (hj : j < n) : |a (arrange a n k j)| ≤ |a (arrange a n k i)| := by
  induction k generalizing i j with
  | zero => exact absurd hi (Nat.not_lt_zero i)
  | succ k ih =>
    obtain ⟨hle, hlt, hmax⟩ := largestFrom_spec (fun j => a (arrange a n k j)) hk
    simp only [arrange, Equiv.Perm.mul_apply]
    rcases Nat.lt_succ_iff_lt_or_eq.mp hi with hik | rfl
    · -- an earlier place is not touched
      have hstay : Equiv.swap k (largestFrom (fun j => a (arrange a n k j)) n k) i = i :=
        Equiv.swap_apply_of_ne_of_ne (by omega) (by omega)
      have hmem := swap_mem (i := i) ⟨by omega, hk⟩ ⟨by omega, hlt⟩ ⟨hij, hj⟩
      rw [hstay]
      exact ih (by omega) hik hmem.1 hmem.2
    · rw [Equiv.swap_apply_left]
      have hmem := swap_mem (i := i) ⟨le_rfl, hk⟩ ⟨hle, hlt⟩ ⟨hij, hj⟩
      exact hmax _ hmem.1 hmem.2

/-! ## What the loop leaves -/

omit [IsStrictOrderedRing K] in
theorem largestFrom_congr {a b : Nat → K} {n i : Nat} (hi : i < n)
    (h : ∀ j, i ≤ j → j < n → a j = b j) : largestFrom a n i = largestFrom b n i := by
  rw [largestFrom, largestFrom, h i le_rfl hi]
  congr 1
  refine List.foldl_ext _ _ _ fun best j hj => ?_
  have hmem := List.mem_range'_1.mp hj
  rw [h j (by omega) (by omega)]

/-- The components of `s` in the order `π`, those below `k` without a sign. -/
structure Arranged (s : SvdState K nr nc) (π : Equiv.Perm ℕ) (k : Nat) (t : SvdState K nr nc) :
    Prop where
  D : ∀ i j, t.D i j = if i = j then
    if i.val < k then |entry s.D (π i) (π i)| else entry s.D (π i) (π i) else 0
  V : ∀ i j, t.V i j = (if i.val < k ∧ entry s.D (π i) (π i) < 0 then -1 else 1) * entry s.V (π i) j
  U : ∀ i j, t.U i j = if i.val < nc then entry s.U i (π j) else s.U i j

variable {s t : SvdState K nr nc} {π : Equiv.Perm ℕ} {k : Nat}

omit [IsStrictOrderedRing K] in
theorem arranged_start (hdiag : ∀ i j, i ≠ j → s.D i j = 0) : Arranged s 1 0 s where
  D := by
    intro i j
    by_cases h : i = j
    · simp [h]
    · simp [h, hdiag i j h]
  V := by simp
  U := by simp

omit [IsStrictOrderedRing K] in
/-- A swap of two places of which none has its final entry. -/
theorem Arranged.swap (h : Arranged s π k t) {l : Nat} (hk : k < nc) (hkl : k ≤ l) (hl : l < nc) :
    Arranged s (π * Equiv.swap k l) k
      { t with U := swapCols k l t.U, D := swapDiag k l t.D, V := swapRows k l t.V } := by
  have hmem : ∀ i : Fin nc, Equiv.swap k l i < nc := fun i =>
    (swap_mem ⟨Nat.zero_le _, hk⟩ ⟨Nat.zero_le _, hl⟩ ⟨Nat.zero_le _, i.isLt⟩).2
  -- both places lie at or after `k`, and so on the same side of it
  have hside : ∀ i : Fin nc, Equiv.swap k l i < k ↔ i.val < k := by
    intro i
    rcases Nat.lt_or_ge i k with hi | hi
    · rw [Equiv.swap_apply_of_ne_of_ne (by omega) (by omega)]
    · have hge := (swap_mem ⟨le_rfl, hk⟩ ⟨hkl, hl⟩ ⟨hi, i.isLt⟩).1
      omega
  refine ⟨?_, ?_, ?_⟩
  · intro i j
    by_cases hij : i = j
    · have hentry : entry t.D (Equiv.swap k l i) (Equiv.swap k l i) =
          t.D ⟨_, hmem i⟩ ⟨_, hmem i⟩ := entry_eq t.D rfl rfl
      simp only [swapDiag, if_pos hij, hentry, h.D, if_true, hside i, Equiv.Perm.mul_apply]
    · simp only [swapDiag, if_neg hij, h.D]
  · intro i j
    have hentry : entry t.V (Equiv.swap k l i) j = t.V ⟨_, hmem i⟩ j := entry_eq t.V rfl rfl
    simp only [swapRows, hentry, h.V, Equiv.Perm.mul_apply]
    congr 1
    exact if_congr (and_congr_left' (hside i)) rfl rfl
  · intro i j
    have hentry : entry t.U i (Equiv.swap k l j) = t.U i ⟨_, hmem j⟩ := entry_eq t.U rfl rfl
    by_cases hi : i.val < nc
    · simp only [swapCols, if_pos hi, hentry, h.U, Equiv.Perm.mul_apply]
    · simp only [swapCols, if_neg hi, h.U]

/-- The entry at `k` loses its sign. -/
theorem Arranged.sign (h : Arranged s π k t) (hk : k < nc) :
    Arranged s π (k + 1) (orderSign k t) := by
  have hentry : entry t.D k k = entry s.D (π k) (π k) := by
    have hD := h.D ⟨k, hk⟩ ⟨k, hk⟩
    rw [entry_eq t.D (i := ⟨k, hk⟩) (j := ⟨k, hk⟩) rfl rfl, hD]
    simp
  unfold orderSign
  rw [hentry]
  split_ifs with hneg
  · refine ⟨?_, ?_, h.U⟩
    · intro i j
      by_cases hik : i.val = k
      · by_cases hij : i = j
        · subst hij
          simp [h.D, hik, abs_of_neg hneg]
        · have hjk : j.val ≠ k := fun hjk => hij (Fin.ext (hik.trans hjk.symm))
          simp [h.D, hik, hij, hjk]
      · have hiff : i.val < k + 1 ↔ i.val < k := by omega
        simp [h.D, hik, hiff]
    · intro i j
      by_cases hik : i.val = k
      · simp [h.V, hik, hneg]
      · have hiff : i.val < k + 1 ↔ i.val < k := by omega
        simp [h.V, hik, hiff]
  · refine ⟨?_, ?_, h.U⟩
    · intro i j
      by_cases hik : i.val = k
      · simp [h.D, hik, abs_of_nonneg (not_lt.mp hneg)]
      · have hiff : i.val < k + 1 ↔ i.val < k := by omega
        simp [h.D, hiff]
    · intro i j
      by_cases hik : i.val = k
      · simp [h.V, hik, hneg]
      · have hiff : i.val < k + 1 ↔ i.val < k := by omega
        simp [h.V, hiff]

/-- **The loop** arranges the components by the selection. -/
theorem orderLoop_arranged (hdiag : ∀ i j, i ≠ j → s.D i j = 0) (hk : k ≤ nc) :
    Arranged s (arrange (fun j => entry s.D j j) nc k) k (orderLoop s k) := by
  induction k with
  | zero => exact arranged_start hdiag
  | succ k ih =>
    have hloop := ih (by omega)
    have hindex : largestFrom (fun j => entry (orderLoop s k).D j j) nc k =
        largestFrom (fun j => entry s.D (arrange (fun j => entry s.D j j) nc k j)
          (arrange (fun j => entry s.D j j) nc k j)) nc k := by
      refine largestFrom_congr hk fun j hkj hj => ?_
      have hD := hloop.D ⟨j, hj⟩ ⟨j, hj⟩
      rw [entry_eq (orderLoop s k).D (i := ⟨j, hj⟩) (j := ⟨j, hj⟩) rfl rfl, hD]
      simp [not_lt.mpr hkj]
    obtain ⟨hle, hlt, -⟩ := largestFrom_spec (fun j => entry s.D
      (arrange (fun j => entry s.D j j) nc k j) (arrange (fun j => entry s.D j j) nc k j)) hk
    rw [orderLoop, arrange]
    refine Arranged.sign ?_ hk
    unfold orderSwap
    rw [hindex]
    dsimp only
    split_ifs with hne
    · exact hloop.swap hk hle hlt
    · -- the largest is in its place
      rw [not_not] at hne
      rw [hne, Equiv.swap_self]
      exact hloop

/-! ## The result -/

/-- The order in which the loop leaves the components of `s`. -/
def SvdState.order (s : SvdState K nr nc) : Equiv.Perm ℕ :=
  arrange (fun j => entry s.D j j) nc (nc - 1)

/-- What the end of the decomposition is for: nonnegative values in decreasing order, and the
same product. -/
structure OrdersRight (s : SvdState K nr nc) : Prop where
  nonneg : ∀ i, 0 ≤ (orderPhase s).D i i
  decreasing : ∀ i j, i ≤ j → (orderPhase s).D j j ≤ (orderPhase s).D i i
  product : tcMatMult (tcMatMult (orderPhase s).U (orderPhase s).D) (orderPhase s).V =
    tcMatMult (tcMatMult s.U s.D) s.V

omit [IsStrictOrderedRing K] in
theorem exists_orderEquiv (s : SvdState K nr nc) :
    ∃ σ : Equiv.Perm (Fin nc), ∀ j, (σ j).val = s.order j := by
  let f : Fin nc → Fin nc := fun j => ⟨s.order j, arrange_lt _ (Nat.sub_le nc 1) j.isLt⟩
  have hf : Function.Injective f := fun i j hij => Fin.ext (s.order.injective (Fin.mk.inj hij))
  exact ⟨Equiv.ofBijective f (Finite.injective_iff_bijective.mp hf), fun j => rfl⟩

/-- A sign taken off the entry and off the row is taken off twice. -/
theorem abs_mul_sign_mul (p : Prop) [Decidable p] (x v : K) :
    (if p then |x| else x) * ((if p ∧ x < 0 then -1 else 1) * v) = x * v := by
  by_cases hp : p
  · rcases lt_or_ge x 0 with hx | hx
    · simp [hp, hx, abs_of_neg hx]
    · simp [hp, not_lt.mpr hx, abs_of_nonneg hx]
  · simp [hp]

omit [LinearOrder K] [IsStrictOrderedRing K] in
/-- A product with a diagonal matrix in the middle. -/
theorem diag_product {U : TcMat K nr nc} {D V : TcMat K nc nc} (hdiag : ∀ i j, i ≠ j → D i j = 0)
    (i : Fin nr) (l : Fin nc) :
    tcMatMult (tcMatMult U D) V i l = ∑ j, U i j * (D j j * V j l) := by
  simp only [tcMatMult, sumLoop_eq]
  refine sum_congr rfl fun j _ => ?_
  rw [sum_eq_single j (fun k _ hk => by rw [hdiag k j hk, mul_zero]) (by simp), mul_assoc]

/-- The three matrices at the end. -/
theorem orderPhase_eq (hdiag : ∀ i j, i ≠ j → s.D i j = 0) {σ : Equiv.Perm (Fin nc)}
    (hσ : ∀ j, (σ j).val = s.order j) :
    (∀ i j, (orderPhase s).D i j =
      if i = j then if i.val < nc - 1 then |s.D (σ i) (σ i)| else s.D (σ i) (σ i) else 0) ∧
    (∀ i j, (orderPhase s).V i j =
      (if i.val < nc - 1 ∧ s.D (σ i) (σ i) < 0 then -1 else 1) * s.V (σ i) j) ∧
    ∀ i j, (orderPhase s).U i j = if i.val < nc then s.U i (σ j) else s.U i j := by
  have hloop := orderLoop_arranged (k := nc - 1) hdiag (Nat.sub_le nc 1)
  have hD : ∀ j : Fin nc, entry s.D (s.order j) (s.order j) = s.D (σ j) (σ j) := fun j =>
    entry_eq s.D (hσ j) (hσ j)
  refine ⟨?_, ?_, ?_⟩
  · intro i j
    have hentry := hloop.D i j
    by_cases hij : i = j
    · subst hij
      rw [if_pos rfl] at hentry ⊢
      rw [← hD i]
      simp only [orderPhase, ne_eq, not_true_eq_false, if_false]
      exact hentry
    · simp [orderPhase, hij]
  · intro i j
    have hentry := hloop.V i j
    have hV : entry s.V (s.order i) j = s.V (σ i) j := entry_eq s.V (hσ i) rfl
    rw [← hD i, ← hV]
    exact hentry
  · intro i j
    have hentry := hloop.U i j
    have hU : entry s.U i (s.order j) = s.U i (σ j) := entry_eq s.U rfl (hσ j)
    rw [← hU]
    exact hentry

/-- The values are right exactly if the last one is. -/
theorem order_values_iff (hnc : 2 ≤ nc) (hdiag : ∀ i j, i ≠ j → s.D i j = 0) :
    ((∀ i, 0 ≤ (orderPhase s).D i i) ∧
      ∀ i j, i ≤ j → (orderPhase s).D j j ≤ (orderPhase s).D i i) ↔
    0 ≤ entry s.D (s.order (nc - 1)) (s.order (nc - 1)) := by
  obtain ⟨σ, hσ⟩ := exists_orderEquiv s
  obtain ⟨hD, -, -⟩ := orderPhase_eq hdiag hσ
  let last : Fin nc := ⟨nc - 1, by omega⟩
  have hlast : entry s.D (s.order (nc - 1)) (s.order (nc - 1)) = s.D (σ last) (σ last) :=
    entry_eq s.D (hσ last) (hσ last)
  have hlastD : (orderPhase s).D last last = s.D (σ last) (σ last) := by
    rw [hD, if_pos rfl, if_neg (Nat.lt_irrefl _)]
  rw [hlast]
  constructor
  · rintro ⟨hnonneg, -⟩
    rw [← hlastD]
    exact hnonneg last
  · intro h
    -- the sign of the last entry does not matter now
    have habs : ∀ i, (orderPhase s).D i i = |s.D (σ i) (σ i)| := by
      intro i
      rw [hD, if_pos rfl]
      split_ifs with hi
      · rfl
      · obtain rfl : i = last := Fin.ext (by have := i.isLt; simp only [last]; omega)
        rw [abs_of_nonneg h]
    refine ⟨fun i => by rw [habs]; exact abs_nonneg _, ?_⟩
    intro i j hij
    rw [habs, habs]
    rcases lt_or_eq_of_le hij with hlt | rfl
    · have hj := j.isLt
      have hlt' : i.val < j.val := hlt
      have hi : i.val < nc - 1 := by omega
      have hsorted := arrange_sorted (fun j => entry s.D j j) (Nat.sub_le nc 1) hi hij hj
      have hentry : ∀ k : Fin nc, entry s.D (arrange (fun j => entry s.D j j) nc (nc - 1) k)
          (arrange (fun j => entry s.D j j) nc (nc - 1) k) = s.D (σ k) (σ k) :=
        fun k => entry_eq s.D (hσ k) (hσ k)
      rwa [hentry, hentry] at hsorted
    · exact le_rfl

/-- The product is the same exactly if it is in the rows that the swaps do not reach. -/
theorem order_product_iff (hdiag : ∀ i j, i ≠ j → s.D i j = 0) (hV : IsOrthogonal (Matrix.of s.V)) :
    tcMatMult (tcMatMult (orderPhase s).U (orderPhase s).D) (orderPhase s).V =
      tcMatMult (tcMatMult s.U s.D) s.V ↔
    ∀ (i : Fin nr) (j : Fin nc), nc ≤ i.val → entry s.D (s.order j) (s.order j) ≠ 0 →
      s.U i j = entry s.U i (s.order j) := by
  obtain ⟨σ, hσ⟩ := exists_orderEquiv s
  obtain ⟨hD, hVrow, hU⟩ := orderPhase_eq hdiag hσ
  have hclear : ∀ i j, i ≠ j → (orderPhase s).D i j = 0 := by
    intro i j hij
    rw [hD, if_neg hij]
  have hentryD : ∀ j : Fin nc, entry s.D (s.order j) (s.order j) = s.D (σ j) (σ j) := fun j =>
    entry_eq s.D (hσ j) (hσ j)
  have hentryU : ∀ (i : Fin nr) (j : Fin nc), entry s.U i (s.order j) = s.U i (σ j) := fun i j =>
    entry_eq s.U rfl (hσ j)
  -- both products, as sums over the components in their new order
  have hold : ∀ i l, tcMatMult (tcMatMult s.U s.D) s.V i l =
      ∑ j, s.U i (σ j) * (s.D (σ j) (σ j) * s.V (σ j) l) := by
    intro i l
    rw [diag_product hdiag, ← Equiv.sum_comp σ]
  have hnew : ∀ i l,
      tcMatMult (tcMatMult (orderPhase s).U (orderPhase s).D) (orderPhase s).V i l =
        ∑ j, (orderPhase s).U i j * (s.D (σ j) (σ j) * s.V (σ j) l) := by
    intro i l
    rw [diag_product hclear]
    refine sum_congr rfl fun j _ => ?_
    rw [hD, if_pos rfl, hVrow, abs_mul_sign_mul]
  simp only [hentryD, hentryU]
  constructor
  · intro h i j hi hne
    have hrow : (fun j => (s.U i j - s.U i (σ j)) * s.D (σ j) (σ j)) = 0 := by
      refine (hV.submatrix σ).eq_zero_of_vecMul ?_
      funext l
      have hil := congrFun (congrFun h i) l
      rw [hnew, hold, ← sub_eq_zero, ← sum_sub_distrib] at hil
      simp only [Matrix.vecMul, dotProduct, Matrix.submatrix_apply, Matrix.of_apply, id,
        Pi.zero_apply]
      rw [← hil]
      refine sum_congr rfl fun j _ => ?_
      rw [hU, if_neg (not_lt.mpr hi)]
      ring
    have hj := congrFun hrow j
    exact sub_eq_zero.mp ((mul_eq_zero.mp hj).resolve_right hne)
  · intro h
    funext i l
    rw [hnew, hold]
    refine sum_congr rfl fun j _ => ?_
    rw [hU]
    split_ifs with hi
    · rfl
    · by_cases hzero : s.D (σ j) (σ j) = 0
      · simp [hzero]
      · rw [h i j (not_lt.mp hi) hzero]

/-- **The order of the singular values** is right exactly if the entry that the selection leaves
last is not negative, and a row of `U` that the swaps do not reach has equal entries at the
old and the new place of every component that is not zero. -/
theorem ordersRight_iff (s : SvdState K nr nc) (hnc : 2 ≤ nc) (hdiag : ∀ i j, i ≠ j → s.D i j = 0)
    (hV : IsOrthogonal (Matrix.of s.V)) :
    OrdersRight s ↔ 0 ≤ entry s.D (s.order (nc - 1)) (s.order (nc - 1)) ∧
      ∀ (i : Fin nr) (j : Fin nc), nc ≤ i.val → entry s.D (s.order j) (s.order j) ≠ 0 →
        s.U i j = entry s.U i (s.order j) := by
  rw [← order_values_iff hnc hdiag, ← order_product_iff hdiag hV]
  exact ⟨fun h => ⟨⟨h.nonneg, h.decreasing⟩, h.product⟩, fun h => ⟨h.1.1, h.1.2, h.2⟩⟩

end Ordered

/-- Two components out of order. -/
def swappedState : SvdState ℚ 2 2 where
  U := tcMatIdentity
  D := ![![1, 0], ![0, 2]]
  V := tcMatIdentity
  i0 := 1
  iter := 0
  pc := .done

/-- They are swapped. -/
theorem swappedState_ordersRight : OrdersRight swappedState := by
  have hdiag : ∀ i j, i ≠ j → swappedState.D i j = 0 := by decide +kernel
  have hV : IsOrthogonal (Matrix.of swappedState.V) := by
    simpa only [swappedState, of_tcMatIdentity] using isOrthogonal_one
  refine (ordersRight_iff swappedState le_rfl hdiag hV).mpr ⟨by decide +kernel, ?_⟩
  intro i j hi
  exact absurd i.isLt (not_lt.mpr hi)

/-- A reflection. -/
def flipMatrix : TcMat ℝ 2 2 := ![![1, 0], ![0, -1]]

theorem tcMatBidiagDecomp_flip : tcMatBidiagDecomp realSqrt flipMatrix =
    ⟨![![-1, 0], ![0, 1]], ![![-1, 0], ![0, -1]], tcMatIdentity⟩ := by
  have hcol : ∀ i : Fin 2, entry flipMatrix i 0 = (![1, 0] : Fin 2 → ℝ) i := by
    intro i
    fin_cases i <;> simp [entry, flipMatrix]
  have hpivot : entry flipMatrix 0 0 = 1 := hcol 0
  have hsum : (sumLoopFrom 0 fun i : Fin 2 =>
      (![1, 0] : Fin 2 → ℝ) i * (![1, 0] : Fin 2 → ℝ) i) = 1 := by
    simp [Fin.sum_univ_two]
  have hleft : fromLeft realSqrt 0 ⟨tcMatIdentity, flipMatrix, tcMatIdentity⟩ =
      ⟨![![-1, 0], ![0, 1]], ![![-1, 0], ![0, -1]], tcMatIdentity⟩ := by
    simp only [fromLeft, hcol, hpivot, hsum, signedRoot_one]
    rw [if_pos one_ne_zero]
    congr 1 <;> ext i j <;> fin_cases i <;> fin_cases j <;>
      simp [tcMatMult, Fin.sum_univ_two, tcMatIdentity, reflectMat, reflectVector, tcMatAdd,
        tcMatMultScalar, tcMatTranspose, flipMatrix] <;> norm_num
  rw [tcMatBidiagDecomp]
  simp only [bidiagLoop, hleft]
  simp [fromRight]

/-- The state in which the main loop ends. -/
noncomputable def flipState : SvdState ℝ 2 2 where
  U := ![![-1, 0], ![0, 1]]
  D := ![![-1, 0], ![0, -1]]
  V := tcMatIdentity
  i0 := 0
  iter := 0
  pc := .head

theorem svdStart_flip : svdStart realSqrt flipMatrix = flipState := by
  rw [svdStart, tcMatBidiagDecomp_flip]
  unfold flipState
  congr 1 <;> funext i j <;> exact entry_val _ i j

theorem zeroThreshold_flip : zeroThreshold realSqrt flipMatrix = 1 / 10 * (1 / 10 ^ 12) := by
  rw [zeroThreshold, svdStart_flip]
  norm_num [svdThreshold, flipState, List.range_succ, entry]

/-- The main loop ends in its first iteration. -/
theorem svdRun_flip : svdRun realSqrt (zeroThreshold realSqrt flipMatrix) flipMatrix 7 =
    { flipState with i0 := 1, pc := .done } := by
  have h0 : svdRun realSqrt (1 / 10 * (1 / 10 ^ 12)) flipMatrix 0 = flipState := svdStart_flip
  have hhead : ∀ t : ℝ, svdStep realSqrt t (1 / 10 * (1 / 10 ^ 12)) flipState =
      flipState.goto (.diag 0) := by
    intro t
    simp [svdStep, flipState, SvdState.goto]
  have hdiag : ∀ t : ℝ, ∀ i < 2, svdStep realSqrt t (1 / 10 * (1 / 10 ^ 12))
      (flipState.goto (.diag i)) = flipState.goto (.diag (i + 1)) := by
    intro t i hi
    have hlarge : |entry flipState.D i i| > 1 / 10 * (1 / 10 ^ 12) := by
      interval_cases i <;> norm_num [entry, flipState]
    simp only [svdStep, SvdState.goto, diagStep, if_pos hi]
    exact if_pos hlarge
  have hsuper : ∀ t : ℝ, svdStep realSqrt t (1 / 10 * (1 / 10 ^ 12)) (flipState.goto (.diag 2)) =
      flipState.goto (.super 0) := by
    intro t
    simp [svdStep, diagStep, flipState, SvdState.goto]
  have hfirst : ∀ t : ℝ, svdStep realSqrt t (1 / 10 * (1 / 10 ^ 12)) (flipState.goto (.super 0)) =
      { flipState with i0 := 1, pc := .super 1 } := by
    intro t
    norm_num [svdStep, superStep, flipState, SvdState.goto, entry]
  have hcheck : ∀ t : ℝ, svdStep realSqrt t (1 / 10 * (1 / 10 ^ 12))
      { flipState with i0 := 1, pc := .super 1 } = { flipState with i0 := 1, pc := .check } := by
    intro t
    simp [svdStep, superStep, SvdState.goto]
  have hdone : ∀ t : ℝ, svdStep realSqrt t (1 / 10 * (1 / 10 ^ 12))
      { flipState with i0 := 1, pc := .check } = { flipState with i0 := 1, pc := .done } := by
    intro t
    simp [svdStep, checkStep, SvdState.goto]
  rw [zeroThreshold_flip]
  simp only [svdRun_succ _ _ _ 0, svdRun_succ _ _ _ 1, svdRun_succ _ _ _ 2, svdRun_succ _ _ _ 3,
    svdRun_succ _ _ _ 4, svdRun_succ _ _ _ 5, svdRun_succ _ _ _ 6, h0, hhead,
    hdiag _ 0 (by decide), hdiag _ 1 (by decide), hsuper, hfirst, hcheck, hdone]

/-- **A negative value**: the diagonal that the main loop leaves of a reflection is not ordered
right. -/
theorem flipMatrix_not_ordersRight :
    (svdRun realSqrt (zeroThreshold realSqrt flipMatrix) flipMatrix 7).pc = .done ∧
      (∀ i j, i ≠ j →
        (svdRun realSqrt (zeroThreshold realSqrt flipMatrix) flipMatrix 7).D i j = 0) ∧
      (orderPhase (svdRun realSqrt (zeroThreshold realSqrt flipMatrix) flipMatrix 7)).D 1 1 = -1 ∧
      ¬OrdersRight (svdRun realSqrt (zeroThreshold realSqrt flipMatrix) flipMatrix 7) := by
  rw [svdRun_flip]
  have hlast : (orderPhase { flipState with i0 := 1, pc := .done }).D 1 1 = -1 := by
    have hindex : largestFrom (fun j => entry flipState.D j j) 2 0 = 0 := by
      norm_num [largestFrom, entry, flipState]
    simp [orderPhase, orderLoop, orderSwap, hindex, orderSign]
    simp [flipState, entry]
  refine ⟨rfl, ?_, hlast, ?_⟩
  · intro i j hij
    fin_cases i <;> fin_cases j <;> simp [flipState] at hij ⊢
  · intro h
    have hnonneg := h.nonneg 1
    rw [hlast] at hnonneg
    norm_num at hnonneg

end Hivemind
