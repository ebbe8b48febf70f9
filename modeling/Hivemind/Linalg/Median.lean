import Hivemind.Linalg.Vote

/-!
# The weighted median

The scan of `tc_wgt_median` goes through the values in order and stops at the first one with
which half of the weight is reached.  Where the weight up to there is half within `1e-8`, the
value is averaged with the next one.  A column with one or two values has no median for
`tc_wgt_median`, which then returns zero.

The sort is `qsort` with a comparison of the values alone, so it may leave equal values in any
order, and with different weights on equal values the scan may stop at another one of them.  It
stops at the same number all the same, unless half of the weight is reached just there within the
tolerance; then one arrangement averages with a larger value and another does not.

* `medianScan_stop`: where the scan stops.
* `stop_last`, `stop_average`: the two results are weighted medians.
* `tcWgtMedian_iff`: **when the result is a weighted median.**
* `exists_splitTie`: two arrangements with different results.
* `sortIndependent_iff`: when the result does not depend on the order in which the sort leaves
  equal values.
-/

namespace Hivemind

open Weighted

variable {K : Type} [Field K] [LinearOrder K]

/-! ## Weights of values -/

/-- The weight of a list of values. -/
def totalWgt (l : List (VecDouble K)) : K := (l.map (·.wgt)).sum

/-- The weight of the values below a number. -/
def wgtBelow (l : List (VecDouble K)) (m : K) : K := totalWgt (l.filter fun x => x.value < m)

/-- The weight of the values above a number. -/
def wgtAbove (l : List (VecDouble K)) (m : K) : K := totalWgt (l.filter fun x => m < x.value)

/-- The weight of the values up to a number. -/
def wgtUpTo (l : List (VecDouble K)) (m : K) : K := totalWgt (l.filter fun x => x.value ≤ m)

section Total

omit [LinearOrder K]

@[simp] theorem totalWgt_nil : totalWgt ([] : List (VecDouble K)) = 0 := rfl

@[simp] theorem totalWgt_cons (x : VecDouble K) (l : List (VecDouble K)) :
    totalWgt (x :: l) = x.wgt + totalWgt l := by
  simp [totalWgt]

@[simp] theorem totalWgt_append (l l' : List (VecDouble K)) :
    totalWgt (l ++ l') = totalWgt l + totalWgt l' := by
  simp [totalWgt]

theorem totalWgt_perm {l l' : List (VecDouble K)} (h : l.Perm l') : totalWgt l = totalWgt l' :=
  (h.map _).sum_eq

theorem foldl_wgt (l : List (VecDouble K)) (start : K) :
    l.foldl (fun sum x => sum + x.wgt) start = start + totalWgt l := by
  induction l generalizing start with
  | nil => simp
  | cons x l ih => rw [List.foldl_cons, ih, totalWgt_cons, add_assoc]

end Total

theorem wgtUpTo_perm {l l' : List (VecDouble K)} (h : l.Perm l') (m : K) :
    wgtUpTo l m = wgtUpTo l' m :=
  totalWgt_perm (h.filter _)

section Ordered

variable [IsStrictOrderedRing K]

theorem totalWgt_nonneg {l : List (VecDouble K)} (h : ∀ x ∈ l, 0 ≤ x.wgt) : 0 ≤ totalWgt l := by
  induction l with
  | nil => exact le_rfl
  | cons x l ih =>
      rw [totalWgt_cons]
      exact add_nonneg (h x (List.mem_cons_self ..)) (ih fun y hy => h y (List.mem_cons_of_mem _ hy))

/-- Some of the values weigh no more than all of them. -/
theorem totalWgt_filter_le {l : List (VecDouble K)} (h : ∀ x ∈ l, 0 ≤ x.wgt)
    (p : VecDouble K → Bool) : totalWgt (l.filter p) ≤ totalWgt l := by
  induction l with
  | nil => exact le_rfl
  | cons x l ih =>
      have hx := h x (List.mem_cons_self ..)
      have hl := ih fun y hy => h y (List.mem_cons_of_mem _ hy)
      rw [List.filter_cons]
      split_ifs
      · rw [totalWgt_cons, totalWgt_cons]
        exact add_le_add_right hl _
      · rw [totalWgt_cons]
        exact hl.trans (le_add_of_nonneg_left hx)

/-- Values of which none from the second part counts weigh no more than the first part. -/
theorem totalWgt_filter_append_le {l l' : List (VecDouble K)} (h : ∀ x ∈ l, 0 ≤ x.wgt)
    {p : VecDouble K → Bool} (hl' : ∀ x ∈ l', p x = false) :
    totalWgt ((l ++ l').filter p) ≤ totalWgt l := by
  have hnone : l'.filter p = [] := List.filter_eq_nil_iff.mpr fun x hx => by simp [hl' x hx]
  rw [List.filter_append, hnone, List.append_nil]
  exact totalWgt_filter_le h p

theorem totalWgt_filter_append_le' {l l' : List (VecDouble K)} (h : ∀ x ∈ l', 0 ≤ x.wgt)
    {p : VecDouble K → Bool} (hl : ∀ x ∈ l, p x = false) :
    totalWgt ((l ++ l').filter p) ≤ totalWgt l' := by
  have hnone : l.filter p = [] := List.filter_eq_nil_iff.mpr fun x hx => by simp [hl x hx]
  rw [List.filter_append, hnone, List.nil_append]
  exact totalWgt_filter_le h p

end Ordered

/-! ## Where the scan stops -/

/-- The values are in order. -/
def SortedValues (l : List (VecDouble K)) : Prop := l.Pairwise fun x y => x.value ≤ y.value

/-- The result at the value where the scan stops: the average with the next value where
the weight is half. -/
def stopValue (midWgts sum : K) (last : VecDouble K) : List (VecDouble K) → K
  | [] => last.value
  | v :: _ => if |sum - midWgts| < 1 / 10 ^ 8 then 1 / 2 * (last.value + v.value) else last.value

/-- The scan of `l` stops at `last`: less than half of the weight comes before it, unless
it is the first, and half is reached with it. -/
structure StopsAt (midWgts : K) (l pre : List (VecDouble K)) (last : VecDouble K)
    (rest : List (VecDouble K)) : Prop where
  eq : l = pre ++ last :: rest
  before : pre = [] ∨ totalWgt pre < midWgts
  reached : midWgts ≤ totalWgt pre + last.wgt

/-- **Where the scan stops**, when all of the weight is half at least. -/
theorem medianScan_stop {midWgts : K} (pre rest : List (VecDouble K)) (last : VecDouble K)
    (hbefore : pre = [] ∨ totalWgt pre < midWgts)
    (htotal : midWgts ≤ totalWgt (pre ++ last :: rest)) :
    ∃ pre' last' rest', StopsAt midWgts (pre ++ last :: rest) pre' last' rest' ∧
      medianScan midWgts last.value (totalWgt pre + last.wgt) rest =
        stopValue midWgts (totalWgt pre' + last'.wgt) last' rest' := by
  induction rest generalizing pre last with
  | nil => exact ⟨pre, last, [], ⟨rfl, hbefore, by simpa using htotal⟩, rfl⟩
  | cons v rest ih =>
      by_cases hlt : totalWgt pre + last.wgt < midWgts
      · -- half is not reached, and the scan goes on
        have hpre : totalWgt (pre ++ [last]) = totalWgt pre + last.wgt := by simp
        obtain ⟨pre', last', rest', hstop, hscan⟩ := ih (pre ++ [last]) v (Or.inr (hpre ▸ hlt))
          (by simpa using htotal)
        rw [hpre] at hscan
        refine ⟨pre', last', rest', ?_, ?_⟩
        · simpa using hstop
        · rw [medianScan, if_pos hlt, hscan]
      · exact ⟨pre, last, v :: rest, ⟨rfl, hbefore, not_lt.mp hlt⟩, by
          rw [medianScan, if_neg hlt]
          rfl⟩

/-- A sort by value, as `qsort` with `vecdouble_cmp` is taken to be. -/
def Platform.SortsByValue (P : Platform K) : Prop :=
  ∀ l, (P.qsort l).Perm l ∧ SortedValues (P.qsort l)

/-- Half of the weight of a column. -/
def halfWgt (l : List (VecDouble K)) : K := totalWgt l / 2

section Column

variable [IsStrictOrderedRing K] {nr nc : Nat} {P : Platform K} {wgt : TcMat K nr 1}
  {A : TcMat K nr nc} {j : Fin nc} {na : K}

theorem halfWgt_le {l : List (VecDouble K)} (h : ∀ x ∈ l, 0 ≤ x.wgt) : halfWgt l ≤ totalWgt l :=
  half_le_self (totalWgt_nonneg h)

/-- The result for a column with more than two values: the scan of a sorted arrangement. -/
theorem tcWgtMedian_stop (hsort : P.SortsByValue)
    (hwgt : ∀ x ∈ columnValues wgt A j na, 0 ≤ x.wgt)
    (hlen : 2 < (columnValues wgt A j na).length) :
    ∃ pre last rest,
      StopsAt (halfWgt (columnValues wgt A j na)) (P.qsort (columnValues wgt A j na)) pre last rest ∧
      tcWgtMedian P wgt A j na =
        stopValue (halfWgt (columnValues wgt A j na)) (totalWgt pre + last.wgt) last rest := by
  obtain ⟨hperm, -⟩ := hsort (columnValues wgt A j na)
  have hmid : (columnValues wgt A j na).foldl (fun sum x => sum + x.wgt) 0 / 2 =
      halfWgt (columnValues wgt A j na) := by
    rw [foldl_wgt, zero_add, halfWgt]
  simp only [tcWgtMedian, hmid, if_neg (not_le.mpr hlen)]
  cases hsorted : P.qsort (columnValues wgt A j na) with
  | nil =>
      have hcount := hperm.length_eq
      rw [hsorted, List.length_nil] at hcount
      omega
  | cons x rest =>
      rw [hsorted] at hperm
      have htotal : halfWgt (columnValues wgt A j na) ≤ totalWgt ([] ++ x :: rest) := by
        rw [List.nil_append, totalWgt_perm hperm]
        exact halfWgt_le hwgt
      obtain ⟨pre, last, rest', hstop, hscan⟩ := medianScan_stop [] rest x (Or.inl rfl) htotal
      rw [totalWgt_nil, zero_add] at hscan
      exact ⟨pre, last, rest', hstop, hscan⟩

end Column

/-! ## The median -/

/-- A weighted median of values: it lies between them, and on either side of it is no
more than half of the weight and `1e-8`. -/
structure IsWeightedMedian (l : List (VecDouble K)) (m : K) : Prop where
  lower : ∃ x ∈ l, x.value ≤ m
  upper : ∃ x ∈ l, m ≤ x.value
  below : wgtBelow l m ≤ halfWgt l + 1 / 10 ^ 8
  above : wgtAbove l m ≤ halfWgt l + 1 / 10 ^ 8

/-- One value that is zero, or two values on both sides of zero, of which none that is not
zero outweighs the other by more than `2e-8`. -/
def ZeroFits : List (VecDouble K) → Prop
  | [x] => x.value = 0
  | [x, y] => x.value * y.value ≤ 0 ∧ (x.value = 0 ∨ x.wgt ≤ y.wgt + 2 / 10 ^ 8) ∧
      (y.value = 0 ∨ y.wgt ≤ x.wgt + 2 / 10 ^ 8)
  | _ => False

section Median

variable [IsStrictOrderedRing K]

theorem tolerance_pos : (0 : K) < 1 / 10 ^ 8 := by positivity

omit [IsStrictOrderedRing K] in
/-- A weighted median does not depend on the order of the values. -/
theorem IsWeightedMedian.perm {l l' : List (VecDouble K)} {m : K} (hperm : l.Perm l')
    (h : IsWeightedMedian l m) : IsWeightedMedian l' m := by
  obtain ⟨⟨x, hx, hxm⟩, ⟨y, hy, hmy⟩, hbelow, habove⟩ := h
  have hhalf : halfWgt l = halfWgt l' := by rw [halfWgt, halfWgt, totalWgt_perm hperm]
  rw [hhalf] at hbelow habove
  exact ⟨⟨x, hperm.mem_iff.mp hx, hxm⟩, ⟨y, hperm.mem_iff.mp hy, hmy⟩,
    (totalWgt_perm (hperm.filter _)).symm.trans_le hbelow,
    (totalWgt_perm (hperm.filter _)).symm.trans_le habove⟩

section Stop

variable {l pre rest : List (VecDouble K)} {last : VecDouble K}

/-- The value where the scan of sorted values stops is a weighted median. -/
theorem stop_last (hwgt : ∀ x ∈ l, 0 ≤ x.wgt) (hpos : 0 < totalWgt l) (hsorted : SortedValues l)
    (hstop : StopsAt (halfWgt l) l pre last rest) : IsWeightedMedian l last.value := by
  have htotal : totalWgt l = halfWgt l + halfWgt l := (add_halves _).symm
  have hhalf : 0 < halfWgt l := half_pos hpos
  obtain ⟨heq, hbefore, hreached⟩ := hstop
  have hmem : last ∈ l := by simp [heq]
  have hpre : totalWgt pre < halfWgt l := by
    rcases hbefore with rfl | h
    · exact hhalf
    · exact h
  have hrest : totalWgt rest ≤ halfWgt l := by
    have hsum : totalWgt l = totalWgt pre + last.wgt + totalWgt rest := by
      rw [heq, totalWgt_append, totalWgt_cons, add_assoc]
    linarith
  have hwpre : ∀ x ∈ pre, 0 ≤ x.wgt := fun x hx => hwgt x (by simp [heq, hx])
  have hwrest : ∀ x ∈ rest, 0 ≤ x.wgt := fun x hx => hwgt x (by simp [heq, hx])
  rw [heq, SortedValues, List.pairwise_append, List.pairwise_cons] at hsorted
  obtain ⟨-, ⟨hafter, -⟩, hbetween⟩ := hsorted
  have hbelow : wgtBelow l last.value ≤ totalWgt pre := by
    rw [wgtBelow, heq]
    refine totalWgt_filter_append_le hwpre fun x hx => ?_
    rcases List.mem_cons.mp hx with rfl | hx
    · simp
    · simpa using hafter x hx
  have habove : wgtAbove l last.value ≤ totalWgt rest := by
    have heq' : l = (pre ++ [last]) ++ rest := by rw [heq]; simp
    rw [wgtAbove, heq']
    refine totalWgt_filter_append_le' hwrest fun x hx => ?_
    rcases List.mem_append.mp hx with hx | hx
    · simpa using hbetween x hx last (List.mem_cons_self ..)
    · rw [List.mem_singleton.mp hx]
      simp
  have htol := tolerance_pos (K := K)
  exact ⟨⟨last, hmem, le_rfl⟩, ⟨last, hmem, le_rfl⟩, by linarith, by linarith⟩

/-- So is the average with the next value, when half of the weight is reached within the
tolerance. -/
theorem stop_average {v : VecDouble K} (hwgt : ∀ x ∈ l, 0 ≤ x.wgt) (hsorted : SortedValues l)
    (hstop : StopsAt (halfWgt l) l pre last (v :: rest))
    (hnear : |totalWgt pre + last.wgt - halfWgt l| < 1 / 10 ^ 8) :
    IsWeightedMedian l (1 / 2 * (last.value + v.value)) := by
  have htotal : totalWgt l = halfWgt l + halfWgt l := (add_halves _).symm
  obtain ⟨heq, -, hreached⟩ := hstop
  have hsum : totalWgt l = totalWgt (pre ++ [last]) + totalWgt (v :: rest) := by
    rw [heq, totalWgt_append, totalWgt_append, totalWgt_cons, totalWgt_cons, totalWgt_cons,
      totalWgt_nil]
    ring
  have hpre : totalWgt (pre ++ [last]) = totalWgt pre + last.wgt := by simp
  have heq' : l = (pre ++ [last]) ++ v :: rest := by rw [heq]; simp
  have hwpre : ∀ x ∈ pre ++ [last], 0 ≤ x.wgt := fun x hx => hwgt x (by rw [heq']; simp at hx ⊢; tauto)
  have hwrest : ∀ x ∈ v :: rest, 0 ≤ x.wgt := fun x hx => hwgt x (by rw [heq']; simp at hx ⊢; tauto)
  have hmem : last ∈ l ∧ v ∈ l := by simp [heq]
  rw [heq', SortedValues, List.pairwise_append] at hsorted
  obtain ⟨hfirst, hsecond, hbetween⟩ := hsorted
  have hlast : ∀ x ∈ pre ++ [last], x.value ≤ last.value := by
    intro x hx
    rcases List.mem_append.mp hx with hx | hx
    · exact (List.pairwise_append.mp hfirst).2.2 x hx last (List.mem_singleton_self last)
    · rw [List.mem_singleton.mp hx]
  have hv : ∀ x ∈ v :: rest, v.value ≤ x.value := by
    intro x hx
    rcases List.mem_cons.mp hx with rfl | hx
    · exact le_rfl
    · exact (List.pairwise_cons.mp hsecond).1 x hx
  have hle : last.value ≤ v.value := hbetween last (by simp) v (List.mem_cons_self ..)
  have hlo : last.value ≤ 1 / 2 * (last.value + v.value) := by linarith
  have hhi : 1 / 2 * (last.value + v.value) ≤ v.value := by linarith
  have hbelow : wgtBelow l (1 / 2 * (last.value + v.value)) ≤ totalWgt (pre ++ [last]) := by
    rw [wgtBelow, heq']
    refine totalWgt_filter_append_le hwpre fun x hx => ?_
    simpa using hhi.trans (hv x hx)
  have habove : wgtAbove l (1 / 2 * (last.value + v.value)) ≤ totalWgt (v :: rest) := by
    rw [wgtAbove, heq']
    refine totalWgt_filter_append_le' hwrest fun x hx => ?_
    simpa using (hlast x hx).trans hlo
  have htol := tolerance_pos (K := K)
  have hclose := (abs_lt.mp hnear).2
  exact ⟨⟨last, hmem.1, hlo⟩, ⟨v, hmem.2, hhi⟩, by linarith, by linarith⟩

theorem isWeightedMedian_stopValue (hwgt : ∀ x ∈ l, 0 ≤ x.wgt) (hpos : 0 < totalWgt l)
    (hsorted : SortedValues l) (hstop : StopsAt (halfWgt l) l pre last rest) :
    IsWeightedMedian l (stopValue (halfWgt l) (totalWgt pre + last.wgt) last rest) := by
  cases rest with
  | nil => exact stop_last hwgt hpos hsorted hstop
  | cons v rest =>
      rw [stopValue]
      split_ifs with hnear
      · exact stop_average hwgt hsorted hstop hnear
      · exact stop_last hwgt hpos hsorted hstop

end Stop

/-- Zero is a weighted median of one value when the value is zero. -/
theorem isWeightedMedian_zero_one {x : VecDouble K} (hwgt : 0 ≤ x.wgt) :
    IsWeightedMedian [x] 0 ↔ ZeroFits [x] := by
  have htol := tolerance_pos (K := K)
  constructor
  · rintro ⟨⟨y, hy, hlo⟩, ⟨z, hz, hhi⟩, -, -⟩
    rw [List.mem_singleton.mp hy] at hlo
    rw [List.mem_singleton.mp hz] at hhi
    exact le_antisymm hlo hhi
  · intro hzero
    have hzero : x.value = 0 := hzero
    have hhalf : 0 ≤ halfWgt [x] := by
      rw [halfWgt, totalWgt_cons, totalWgt_nil, add_zero]
      exact div_nonneg hwgt zero_le_two
    refine ⟨⟨x, List.mem_singleton_self x, hzero.le⟩, ⟨x, List.mem_singleton_self x, hzero.ge⟩, ?_, ?_⟩
    · simp [wgtBelow, hzero]
      linarith
    · simp [wgtAbove, hzero]
      linarith

/-- Zero is a weighted median of two values when it lies between them and neither
outweighs the other. -/
theorem isWeightedMedian_zero_two {x y : VecDouble K} (hx : 0 ≤ x.wgt) (hy : 0 ≤ y.wgt) :
    IsWeightedMedian [x, y] 0 ↔ ZeroFits [x, y] := by
  have htol := tolerance_pos (K := K)
  have hhalf : halfWgt [x, y] = (x.wgt + y.wgt) / 2 := by simp [halfWgt]
  have htwo : (2 : K) / 10 ^ 8 = 1 / 10 ^ 8 + 1 / 10 ^ 8 := by ring
  have hbelow : wgtBelow [x, y] 0 =
      (if x.value < 0 then x.wgt else 0) + if y.value < 0 then y.wgt else 0 := by
    simp only [wgtBelow, List.filter_cons, decide_eq_true_eq]
    split_ifs <;> simp
  have habove : wgtAbove [x, y] 0 =
      (if 0 < x.value then x.wgt else 0) + if 0 < y.value then y.wgt else 0 := by
    simp only [wgtAbove, List.filter_cons, decide_eq_true_eq]
    split_ifs <;> simp
  have hbounds : IsWeightedMedian [x, y] 0 ↔
      (x.value ≤ 0 ∨ y.value ≤ 0) ∧ (0 ≤ x.value ∨ 0 ≤ y.value) ∧
        wgtBelow [x, y] 0 ≤ halfWgt [x, y] + 1 / 10 ^ 8 ∧
        wgtAbove [x, y] 0 ≤ halfWgt [x, y] + 1 / 10 ^ 8 := by
    refine ⟨fun h => ⟨by simpa using h.lower, by simpa using h.upper, h.below, h.above⟩, fun h => ?_⟩
    exact ⟨by simpa using h.1, by simpa using h.2.1, h.2.2.1, h.2.2.2⟩
  rw [hbounds, hbelow, habove, hhalf, ZeroFits, htwo]
  clear hbounds htwo
  generalize (1 : K) / 10 ^ 8 = tol at htol ⊢
  -- no value on a side outweighs the other when it has at most half of the weight
  have hxle : x.wgt ≤ (x.wgt + y.wgt) / 2 + tol ↔ x.wgt ≤ y.wgt + (tol + tol) := by
    constructor <;> intro h <;> linarith
  have hyle : y.wgt ≤ (x.wgt + y.wgt) / 2 + tol ↔ y.wgt ≤ x.wgt + (tol + tol) := by
    constructor <;> intro h <;> linarith
  have hzero : 0 ≤ (x.wgt + y.wgt) / 2 + tol := by linarith
  rcases lt_trichotomy x.value 0 with hx0 | hx0 | hx0
  · rcases lt_trichotomy y.value 0 with hy0 | hy0 | hy0
    · simp [hx0.not_ge, hy0.not_ge, (mul_pos_of_neg_of_neg hx0 hy0).not_ge]
    · simp [hx0, hx0.le, hx0.ne, hx0.not_gt, hy0, hzero, ← hxle]
    · simp [hx0, hx0.le, hx0.ne, hx0.not_gt, hy0, hy0.le, hy0.ne', hy0.not_gt,
        (mul_neg_of_neg_of_pos hx0 hy0).le, ← hxle, ← hyle]
  · rcases lt_trichotomy y.value 0 with hy0 | hy0 | hy0
    · simp [hx0, hy0, hy0.ne, hy0.not_gt, hzero, ← hyle]
    · simp [hx0, hy0, hzero]
    · simp [hx0, hy0, hy0.ne', hy0.not_gt, hzero, ← hyle]
  · rcases lt_trichotomy y.value 0 with hy0 | hy0 | hy0
    · simp [hx0, hx0.le, hx0.ne', hx0.not_gt, hy0, hy0.le, hy0.ne, hy0.not_gt,
        (mul_neg_of_pos_of_neg hx0 hy0).le, ← hxle, ← hyle, and_comm]
    · simp [hx0, hx0.le, hx0.ne', hx0.not_gt, hy0, hzero, ← hxle]
    · simp [hx0.not_ge, hy0.not_ge, (mul_pos hx0 hy0).not_ge]

omit [IsStrictOrderedRing K] in
theorem columnValues_nonneg {nr nc : Nat} {wgt : TcMat K nr 1} {A : TcMat K nr nc} {j : Fin nc}
    {na : K} (hwgt : ∀ i, 0 ≤ wgt i 0) : ∀ x ∈ columnValues wgt A j na, 0 ≤ x.wgt := by
  intro x hx
  obtain ⟨i, -, hi⟩ := List.mem_filterMap.mp hx
  split_ifs at hi
  obtain rfl := Option.some.inj hi
  exact hwgt i

/-- **When `tc_wgt_median` returns a weighted median**: for more than two values always,
and for one or two when zero is one. -/
theorem tcWgtMedian_iff {nr nc : Nat} (P : Platform K) (hsort : P.SortsByValue)
    (wgt : TcMat K nr 1) (A : TcMat K nr nc) (j : Fin nc) (na : K) (hwgt : ∀ i, 0 ≤ wgt i 0)
    (hpos : 0 < totalWgt (columnValues wgt A j na)) :
    IsWeightedMedian (columnValues wgt A j na) (tcWgtMedian P wgt A j na) ↔
      2 < (columnValues wgt A j na).length ∨ ZeroFits (columnValues wgt A j na) := by
  have hnonneg : ∀ x ∈ columnValues wgt A j na, 0 ≤ x.wgt := columnValues_nonneg hwgt
  by_cases hlen : 2 < (columnValues wgt A j na).length
  · -- the scan runs over a sorted arrangement of the values
    refine iff_of_true ?_ (Or.inl hlen)
    obtain ⟨hperm, hsorted⟩ := hsort (columnValues wgt A j na)
    obtain ⟨pre, last, rest, hstop, hmedian⟩ := tcWgtMedian_stop hsort hnonneg hlen
    have hhalf : halfWgt (columnValues wgt A j na) =
        halfWgt (P.qsort (columnValues wgt A j na)) := by
      rw [halfWgt, halfWgt, totalWgt_perm hperm]
    rw [hmedian]
    rw [hhalf] at hstop ⊢
    exact (isWeightedMedian_stopValue (fun x hx => hnonneg x (hperm.mem_iff.mp hx))
      ((totalWgt_perm hperm).symm ▸ hpos) hsorted hstop).perm hperm
  · have hzero : tcWgtMedian P wgt A j na = 0 := by
      simp only [tcWgtMedian, if_pos (not_lt.mp hlen)]
    rw [hzero]
    cases hvalues : columnValues wgt A j na with
    | nil => simp [hvalues] at hpos
    | cons x rest =>
        rw [hvalues] at hlen hnonneg
        cases rest with
        | nil => simpa using isWeightedMedian_zero_one (hnonneg x (by simp))
        | cons y rest =>
            cases rest with
            | nil => simpa using isWeightedMedian_zero_two (hnonneg x (by simp)) (hnonneg y (by simp))
            | cons z rest => simp at hlen

end Median

/-! ## The order of equal values -/

/-- The result is the same for every order of the rows, and for every order in which a
sort may leave equal values. -/
def SortIndependent {nr nc : Nat} (wgt : TcMat K nr 1) (A : TcMat K nr nc) (j : Fin nc) (na : K) :
    Prop :=
  ∀ P P' : Platform K, P.SortsByValue → P'.SortsByValue → ∀ σ : Equiv.Perm (Fin nr),
    tcWgtMedian P wgt A j na =
      tcWgtMedian P' (fun i => wgt (σ i)) (fun i => A (σ i)) j na

/-- Half of the weight is reached at a value, within the tolerance, and there are larger
values.  The scan then averages when it comes to the last of the equal values, and there
is a voter it may stop before and one it may not. -/
structure SplitTie (l : List (VecDouble K)) (x y z : VecDouble K) : Prop where
  left : x ∈ l
  right : y ∈ l
  larger : z ∈ l
  tie : x.value = y.value
  lt : x.value < z.value
  near : wgtUpTo l x.value - halfWgt l < 1 / 10 ^ 8
  before : x.wgt ≤ wgtUpTo l x.value - halfWgt l
  upTo : wgtUpTo l x.value - halfWgt l < y.wgt

section Ties

variable [IsStrictOrderedRing K]

section Arrangement

variable {l pre rest : List (VecDouble K)} {last : VecDouble K}

omit [IsStrictOrderedRing K] in
/-- When the next value is larger, the weight up to the stop is that of the values up to
it. -/
theorem wgtUpTo_stop {v : VecDouble K} (hsorted : SortedValues (pre ++ last :: v :: rest))
    (hlt : last.value < v.value) :
    wgtUpTo (pre ++ last :: v :: rest) last.value = totalWgt pre + last.wgt := by
  have hsplit : pre ++ last :: v :: rest = (pre ++ [last]) ++ v :: rest := by simp
  rw [hsplit, SortedValues, List.pairwise_append] at hsorted
  obtain ⟨hfirst, hsecond, -⟩ := hsorted
  have hkeep : (pre ++ [last]).filter (fun x => x.value ≤ last.value) = pre ++ [last] := by
    refine List.filter_eq_self.mpr fun x hx => ?_
    rcases List.mem_append.mp hx with hx | hx
    · simpa using (List.pairwise_append.mp hfirst).2.2 x hx last (List.mem_singleton_self last)
    · simp [List.mem_singleton.mp hx]
  have hdrop : (v :: rest).filter (fun x => x.value ≤ last.value) = [] := by
    refine List.filter_eq_nil_iff.mpr fun x hx => ?_
    have hv : v.value ≤ x.value := by
      rcases List.mem_cons.mp hx with rfl | hx
      · exact le_rfl
      · exact (List.pairwise_cons.mp hsecond).1 x hx
    simpa using hlt.trans_le hv
  rw [wgtUpTo, hsplit, List.filter_append, hkeep, hdrop, List.append_nil, totalWgt_append,
    totalWgt_cons, totalWgt_nil, add_zero]

/-- The weight of the values up to a number that the first part does not exceed. -/
theorem totalWgt_le_wgtUpTo {l₁ l₂ : List (VecDouble K)} {m : K} (h₁ : ∀ x ∈ l₁, x.value ≤ m)
    (h₂ : ∀ x ∈ l₂, 0 ≤ x.wgt) : totalWgt l₁ ≤ wgtUpTo (l₁ ++ l₂) m := by
  have hkeep : l₁.filter (fun x => x.value ≤ m) = l₁ :=
    List.filter_eq_self.mpr fun x hx => by simpa using h₁ x hx
  rw [wgtUpTo, List.filter_append, hkeep, totalWgt_append]
  exact le_add_of_nonneg_right (totalWgt_nonneg fun x hx => h₂ x (List.mem_of_mem_filter hx))

/-- The values before the stop weigh less than half, and those up to it half at least, so
two arrangements stop at the same value. -/
theorem stop_value_le {mid : K} {l' pre' rest' : List (VecDouble K)} {last' : VecDouble K}
    (hperm : l.Perm l') (hwgt : ∀ x ∈ l, 0 ≤ x.wgt) (hsorted : SortedValues l)
    (hsorted' : SortedValues l') (hstop : StopsAt mid l pre last rest)
    (hstop' : StopsAt mid l' pre' last' rest') : last'.value ≤ last.value := by
  by_contra hlt
  have hlt : last.value < last'.value := not_le.mp hlt
  obtain ⟨rfl, -, hreached⟩ := hstop
  obtain ⟨rfl, hbefore, -⟩ := hstop'
  have hmem : last ∈ pre' ++ last' :: rest' := hperm.mem_iff.mp (by simp)
  rw [SortedValues, List.pairwise_append, List.pairwise_cons] at hsorted hsorted'
  -- what comes up to `last` in one arrangement comes before `last'` in the other
  have hafter : ∀ x ∈ last' :: rest', ¬x.value ≤ last.value := by
    intro x hx
    refine not_le.mpr ?_
    rcases List.mem_cons.mp hx with rfl | hx
    · exact hlt
    · exact hlt.trans_le (hsorted'.2.1.1 x hx)
  rcases hbefore with rfl | hbefore
  · exact hafter last (by simpa using hmem) le_rfl
  · have hsplit : pre ++ last :: rest = (pre ++ [last]) ++ rest := by simp
    have hupTo : totalWgt (pre ++ [last]) ≤ wgtUpTo (pre ++ last :: rest) last.value := by
      rw [hsplit]
      refine totalWgt_le_wgtUpTo (fun x hx => ?_) fun x hx => hwgt x (by simp [hx])
      rcases List.mem_append.mp hx with hx | hx
      · exact hsorted.2.2 x hx last (List.mem_cons_self ..)
      · rw [List.mem_singleton.mp hx]
    have hpre' : wgtUpTo (pre' ++ last' :: rest') last.value ≤ totalWgt pre' :=
      totalWgt_filter_append_le (fun x hx => hwgt x (hperm.mem_iff.mpr (by simp [hx])))
        fun x hx => by simpa using hafter x hx
    rw [wgtUpTo_perm hperm] at hupTo
    rw [totalWgt_append, totalWgt_cons, totalWgt_nil, add_zero] at hupTo
    exact absurd (hreached.trans (hupTo.trans hpre')) (not_le.mpr hbefore)

omit [IsStrictOrderedRing K] in
/-- Where the result is not the value at which the scan stops, it is the average with a
larger one. -/
theorem stopValue_ne {mid sum : K} (h : stopValue mid sum last rest ≠ last.value) :
    ∃ v rest', rest = v :: rest' ∧ |sum - mid| < 1 / 10 ^ 8 := by
  cases rest with
  | nil => exact absurd rfl h
  | cons v rest' =>
      rw [stopValue] at h
      split_ifs at h with hnear
      · exact ⟨v, rest', rfl, hnear⟩
      · exact absurd rfl h

/-- **Two arrangements with different results** have a tie that they split differently. -/
theorem exists_splitTie {l' pre' rest' : List (VecDouble K)} {last' : VecDouble K}
    (hperm : l.Perm l') (hwgt : ∀ x ∈ l, 0 ≤ x.wgt) (hsorted : SortedValues l)
    (hsorted' : SortedValues l') (hstop : StopsAt (halfWgt l) l pre last rest)
    (hstop' : StopsAt (halfWgt l) l' pre' last' rest')
    (hvalue : stopValue (halfWgt l) (totalWgt pre + last.wgt) last rest ≠ last.value)
    (hne : stopValue (halfWgt l) (totalWgt pre + last.wgt) last rest ≠
      stopValue (halfWgt l) (totalWgt pre' + last'.wgt) last' rest') :
    ∃ x y z, SplitTie l x y z := by
  have hwgt' : ∀ x ∈ l', 0 ≤ x.wgt := fun x hx => hwgt x (hperm.mem_iff.mpr hx)
  have hlast : last'.value = last.value :=
    le_antisymm (stop_value_le hperm hwgt hsorted hsorted' hstop hstop')
      (stop_value_le hperm.symm hwgt' hsorted' hsorted hstop' hstop)
  obtain ⟨v, rest, rfl, hnear⟩ := stopValue_ne hvalue
  obtain ⟨heq, hbefore, hreached⟩ := hstop
  obtain ⟨heq', -, hreached'⟩ := hstop'
  have hs := hsorted
  have hs' := hsorted'
  rw [heq, SortedValues, List.pairwise_append, List.pairwise_cons] at hs
  rw [heq', SortedValues, List.pairwise_append, List.pairwise_cons] at hs'
  have hlt : last.value < v.value := by
    refine lt_of_le_of_ne (hs.2.1.1 v (List.mem_cons_self ..)) fun h => hvalue ?_
    rw [stopValue, if_pos hnear, ← h]
    ring
  have hupTo : wgtUpTo l last.value = totalWgt pre + last.wgt := by
    rw [heq]
    exact wgtUpTo_stop (heq ▸ hsorted) hlt
  -- what is larger than the value comes after it in the other arrangement too
  have hlater : ∀ x ∈ l', last.value < x.value → x ∈ rest' := by
    intro x hx hx'
    rw [heq'] at hx
    rcases List.mem_append.mp hx with hx | hx
    · exact absurd (hs'.2.2 x hx last' (List.mem_cons_self ..)) (hlast ▸ not_le.mpr hx')
    · rcases List.mem_cons.mp hx with rfl | hx
      · exact absurd hlast hx'.ne'
      · exact hx
  have hv : v ∈ rest' := hlater v (hperm.mem_iff.mp (by simp [heq])) hlt
  cases rest' with
  | nil => cases hv
  | cons v' rest' =>
      have hle' : last.value ≤ v'.value := hlast ▸ hs'.2.1.1 v' (List.mem_cons_self ..)
      rcases hle'.lt_or_eq with hlt' | htie
      · -- both average with the next larger value
        exfalso
        apply hne
        have hupTo' : wgtUpTo l last.value = totalWgt pre' + last'.wgt := by
          rw [wgtUpTo_perm hperm, ← hlast, heq']
          exact wgtUpTo_stop (heq' ▸ hsorted') (hlast ▸ hlt')
        have hvv' : v.value = v'.value := by
          refine le_antisymm ?_ ?_
          · have hmem : v' ∈ pre ++ last :: v :: rest := heq ▸ hperm.mem_iff.mpr (by simp [heq'])
            rcases List.mem_append.mp hmem with hmem | hmem
            · exact absurd (hs.2.2 v' hmem last (List.mem_cons_self ..)) (not_le.mpr hlt')
            · rcases List.mem_cons.mp hmem with rfl | hmem
              · exact absurd hlt' (lt_irrefl _)
              · rcases List.mem_cons.mp hmem with rfl | hmem
                · exact le_rfl
                · exact (List.pairwise_cons.mp hs.2.1.2).1 v' hmem
          · rcases List.mem_cons.mp hv with rfl | hv
            · exact le_rfl
            · exact (List.pairwise_cons.mp hs'.2.1.2).1 v hv
        rw [stopValue, stopValue, ← hupTo, ← hupTo', hlast, hvv']
      · -- the other one stops before the last of the equal values
        have hbound : totalWgt pre' + last'.wgt + v'.wgt ≤ wgtUpTo l last.value := by
          have hsplit : l' = (pre' ++ [last', v']) ++ rest' := by simp [heq']
          have hle : totalWgt (pre' ++ [last', v']) ≤
              wgtUpTo ((pre' ++ [last', v']) ++ rest') last.value :=
            totalWgt_le_wgtUpTo (fun x hx => ?_) (fun x hx => hwgt' x (by simp [heq', hx]))
          · rw [← hsplit, ← wgtUpTo_perm hperm] at hle
            simpa [add_assoc] using hle
          · rcases List.mem_append.mp hx with hx | hx
            · exact hlast ▸ hs'.2.2 x hx last' (List.mem_cons_self ..)
            · rcases List.mem_pair.mp hx with rfl | rfl
              · exact hlast.le
              · exact htie.ge
        have hpre : totalWgt pre < halfWgt l := by
          refine hbefore.resolve_left fun hnil => ?_
          -- the value is alone in the one arrangement, and not in the other
          have hcount := hperm.countP_eq fun x => x.value = last.value
          have hone : ((v :: rest).countP fun x => x.value = last.value) = 0 := by
            refine List.countP_eq_zero.mpr fun x hx => ?_
            have hle : v.value ≤ x.value := by
              rcases List.mem_cons.mp hx with rfl | hx
              · exact le_rfl
              · exact (List.pairwise_cons.mp hs.2.1.2).1 x hx
            simpa using (hlt.trans_le hle).ne'
          rw [heq, heq', hnil, List.nil_append, List.countP_cons, hone, List.countP_append,
            List.countP_cons, List.countP_cons] at hcount
          simp [hlast, htie.symm] at hcount
          omega
        refine ⟨v', last, v, ?_⟩
        rw [← hupTo] at hreached hnear
        exact { left := hperm.mem_iff.mpr (by simp [heq'])
                right := by simp [heq]
                larger := by simp [heq]
                tie := htie.symm
                lt := htie ▸ hlt
                near := htie ▸ (abs_lt.mp hnear).2
                before := by rw [← htie]; linarith
                upTo := by rw [← htie, hupTo]; linarith }

/-- A list is stopped at in one place. -/
theorem StopsAt.unique {mid : K} {pre' rest' : List (VecDouble K)} {last' : VecDouble K}
    (hwgt : ∀ x ∈ l, 0 ≤ x.wgt) (hstop : StopsAt mid l pre last rest)
    (hstop' : StopsAt mid l pre' last' rest') : pre' = pre ∧ last' = last ∧ rest' = rest := by
  -- one of the two is not later than the other
  have hle : ∀ {pre rest pre' rest' : List (VecDouble K)} {last last' : VecDouble K},
      StopsAt mid l pre last rest → StopsAt mid l pre' last' rest' → pre'.length ≤ pre.length := by
    intro pre rest pre' rest' last last' h h'
    by_contra hlong
    have hsplit : pre ++ [last] ++ rest = pre' ++ last' :: rest' := by
      rw [← h'.eq, h.eq]
      simp
    obtain ⟨t, ht⟩ : pre ++ [last] <+: pre' := by
      refine List.prefix_of_prefix_length_le ⟨rest, hsplit⟩ ⟨last' :: rest', rfl⟩ ?_
      simp only [List.length_append, List.length_singleton]
      omega
    have hmore : totalWgt pre + last.wgt ≤ totalWgt pre' := by
      rw [← ht, totalWgt_append, totalWgt_append, totalWgt_cons, totalWgt_nil, add_zero]
      refine le_add_of_nonneg_right (totalWgt_nonneg fun x hx => hwgt x ?_)
      rw [h'.eq, ← ht]
      simp [hx]
    rcases h'.before with rfl | hbefore
    · simp at ht
    · exact absurd (h.reached.trans hmore) (not_le.mpr hbefore)
  have hlen := le_antisymm (hle hstop' hstop) (hle hstop hstop')
  obtain ⟨hpre, hcons⟩ := List.append_inj (hstop.eq.symm.trans hstop'.eq) hlen
  obtain ⟨hlast, hrest⟩ := List.cons.inj hcons
  exact ⟨hpre.symm, hlast.symm, hrest.symm⟩

end Arrangement

omit [Field K] [IsStrictOrderedRing K] in
/-- Any of the equal values can be the last of them. -/
theorem exists_arrangement {vs : List (VecDouble K)} {w : VecDouble K} (hw : w ∈ vs) :
    ∃ pre post, (pre ++ w :: post).Perm vs ∧ SortedValues (pre ++ w :: post) ∧
      (∀ x ∈ pre, x.value ≤ w.value) ∧ ∀ x ∈ post, w.value < x.value := by
  obtain ⟨s, t, rfl⟩ := List.append_of_mem hw
  have htotal : Std.Total fun a b : VecDouble K => a.value ≤ b.value :=
    ⟨fun a b => le_total a.value b.value⟩
  have htrans : IsTrans (VecDouble K) fun a b => a.value ≤ b.value :=
    ⟨fun _ _ _ h h' => le_trans h h'⟩
  let sort := List.insertionSort fun a b : VecDouble K => a.value ≤ b.value
  let low := (s ++ t).filter fun x => x.value ≤ w.value
  let high := (s ++ t).filter fun x => !decide (x.value ≤ w.value)
  have hlow : ∀ x ∈ sort low, x.value ≤ w.value := by
    intro x hx
    have hmem := (List.perm_insertionSort _ low).mem_iff.mp hx
    simpa using (List.mem_filter.mp hmem).2
  have hhigh : ∀ x ∈ sort high, w.value < x.value := by
    intro x hx
    have hmem := (List.perm_insertionSort _ high).mem_iff.mp hx
    simpa using (List.mem_filter.mp hmem).2
  refine ⟨sort low, sort high, ?_, ?_, hlow, hhigh⟩
  · have hparts : (sort low ++ sort high).Perm (s ++ t) :=
      ((List.perm_insertionSort _ low).append (List.perm_insertionSort _ high)).trans
        (List.filter_append_perm _ _)
    exact List.perm_middle.trans ((hparts.cons w).trans List.perm_middle.symm)
  · rw [SortedValues, List.pairwise_append, List.pairwise_cons]
    refine ⟨List.pairwise_insertionSort _ low,
      ⟨fun x hx => (hhigh x hx).le, List.pairwise_insertionSort _ high⟩, fun x hx y hy => ?_⟩
    rcases List.mem_cons.mp hy with rfl | hy
    · exact hlow x hx
    · exact (hlow x hx).trans (hhigh y hy).le

omit [Field K] [IsStrictOrderedRing K] in
/-- A sort may leave the values in any order that is sorted. -/
theorem exists_platform {vs l : List (VecDouble K)} (hperm : l.Perm vs) (hsorted : SortedValues l) :
    ∃ P : Platform K, P.SortsByValue ∧ P.qsort vs = l := by
  classical
  have htotal : Std.Total fun a b : VecDouble K => a.value ≤ b.value :=
    ⟨fun a b => le_total a.value b.value⟩
  have htrans : IsTrans (VecDouble K) fun a b => a.value ≤ b.value :=
    ⟨fun _ _ _ h h' => le_trans h h'⟩
  let P : Platform K :=
    { tcMatSvd := fun A => (0, A)
      qsort := fun q => if q = vs then l else q.insertionSort fun a b => a.value ≤ b.value }
  refine ⟨P, fun q => ?_, if_pos rfl⟩
  by_cases hq : q = vs
  · have hq' : P.qsort q = l := if_pos hq
    rw [hq', hq]
    exact ⟨hperm, hsorted⟩
  · have hq' : P.qsort q = q.insertionSort fun a b => a.value ≤ b.value := if_neg hq
    rw [hq']
    exact ⟨List.perm_insertionSort _ q, List.pairwise_insertionSort _ q⟩

section Split

variable {l pre post : List (VecDouble K)} {w : VecDouble K}

omit [IsStrictOrderedRing K] in
/-- The weight before the last of the equal values. -/
theorem totalWgt_before (hpre : ∀ x ∈ pre, x.value ≤ w.value) (hpost : ∀ x ∈ post, w.value < x.value) :
    totalWgt pre + w.wgt = wgtUpTo (pre ++ w :: post) w.value := by
  have hkeep : pre.filter (fun x => x.value ≤ w.value) = pre :=
    List.filter_eq_self.mpr fun x hx => by simpa using hpre x hx
  have hdrop : post.filter (fun x => x.value ≤ w.value) = [] :=
    List.filter_eq_nil_iff.mpr fun x hx => by simpa using hpost x hx
  rw [wgtUpTo, List.filter_append, List.filter_cons, hkeep, hdrop]
  simp

/-- When half is not reached before the last of the equal values, the result is above
them. -/
theorem lt_stop_of_upTo {mid sum : K} {z : VecDouble K} (hz : z ∈ post)
    (hwgt : ∀ q ∈ pre ++ w :: post, 0 ≤ q.wgt) (hpost : ∀ q ∈ post, w.value < q.value)
    (hsum : totalWgt pre + w.wgt = sum) (hreached : mid ≤ sum) (hnear : sum - mid < 1 / 10 ^ 8)
    (hbefore : totalWgt pre < mid)
    {pre' rest' : List (VecDouble K)} {last' : VecDouble K}
    (hstop : StopsAt mid (pre ++ w :: post) pre' last' rest') :
    w.value < stopValue mid (totalWgt pre' + last'.wgt) last' rest' := by
  have hhere : StopsAt mid (pre ++ w :: post) pre w post :=
    ⟨rfl, Or.inr hbefore, hsum ▸ hreached⟩
  obtain ⟨rfl, rfl, rfl⟩ := hhere.unique hwgt hstop
  cases rest' with
  | nil => cases hz
  | cons v rest' =>
      have habs : |totalWgt pre' + last'.wgt - mid| < 1 / 10 ^ 8 := by
        rw [hsum, abs_of_nonneg (sub_nonneg.mpr hreached)]
        exact hnear
      rw [stopValue, if_pos habs]
      have hv := hpost v (List.mem_cons_self ..)
      linarith

/-- When half is reached before the last of the equal values, the result is not. -/
theorem stop_le_of_before {mid : K} (hwgt : ∀ q ∈ pre ++ w :: post, 0 ≤ q.wgt)
    (hpre : ∀ q ∈ pre, q.value ≤ w.value) (hne : pre ≠ []) (hreached : mid ≤ totalWgt pre)
    {pre' rest' : List (VecDouble K)} {last' : VecDouble K}
    (hstop : StopsAt mid (pre ++ w :: post) pre' last' rest') :
    stopValue mid (totalWgt pre' + last'.wgt) last' rest' ≤ w.value := by
  have hshort : pre'.length < pre.length := by
    by_contra hlong
    obtain ⟨t, ht⟩ : pre <+: pre' :=
      List.prefix_of_prefix_length_le ⟨w :: post, rfl⟩ ⟨last' :: rest', hstop.eq.symm⟩
        (not_lt.mp hlong)
    have hmore : totalWgt pre ≤ totalWgt pre' := by
      rw [← ht, totalWgt_append]
      refine le_add_of_nonneg_right (totalWgt_nonneg fun x hx => hwgt x ?_)
      rw [hstop.eq, ← ht]
      simp [hx]
    rcases hstop.before with rfl | hbefore
    · simp [hne] at ht
    · exact absurd (hreached.trans hmore) (not_le.mpr hbefore)
  obtain ⟨t, ht⟩ : pre' ++ [last'] <+: pre := by
    refine List.prefix_of_prefix_length_le ⟨rest', ?_⟩ ⟨w :: post, rfl⟩ ?_
    · rw [hstop.eq]
      simp
    · simpa using hshort
  have hlast : last'.value ≤ w.value := hpre last' (by simp [← ht])
  have hrest : rest' = t ++ w :: post := by
    have heq := hstop.eq
    rw [← ht] at heq
    simpa using heq.symm
  cases hr : rest' with
  | nil => simp [hr] at hrest
  | cons v rest'' =>
      have hv : v.value ≤ w.value := by
        cases t with
        | nil =>
            rw [hr] at hrest
            rw [(List.cons.inj hrest).1]
        | cons v' t =>
            rw [hr] at hrest
            rw [(List.cons.inj hrest).1]
            exact hpre v' (by simp [← ht])
      rw [stopValue]
      split_ifs
      · linarith
      · exact hlast

end Split

omit [IsStrictOrderedRing K] in
theorem SplitTie.perm {l l' : List (VecDouble K)} {x y z : VecDouble K} (hperm : l.Perm l')
    (h : SplitTie l x y z) : SplitTie l' x y z := by
  have hupTo := wgtUpTo_perm hperm x.value
  have hhalf : halfWgt l = halfWgt l' := by rw [halfWgt, halfWgt, totalWgt_perm hperm]
  refine ⟨hperm.mem_iff.mp h.left, hperm.mem_iff.mp h.right, hperm.mem_iff.mp h.larger, h.tie, h.lt,
    ?_, ?_, ?_⟩
  · exact hupTo ▸ hhalf ▸ h.near
  · exact hupTo ▸ hhalf ▸ h.before
  · exact hupTo ▸ hhalf ▸ h.upTo

/-- **Without such a tie all sorted arrangements have one result.** -/
theorem stopValue_eq {l l' pre pre' rest rest' : List (VecDouble K)} {last last' : VecDouble K}
    (hperm : l.Perm l') (hwgt : ∀ x ∈ l, 0 ≤ x.wgt) (hsorted : SortedValues l)
    (hsorted' : SortedValues l') (hstop : StopsAt (halfWgt l) l pre last rest)
    (hstop' : StopsAt (halfWgt l) l' pre' last' rest') (hnone : ∀ x y z, ¬SplitTie l x y z) :
    stopValue (halfWgt l) (totalWgt pre + last.wgt) last rest =
      stopValue (halfWgt l) (totalWgt pre' + last'.wgt) last' rest' := by
  have hwgt' : ∀ x ∈ l', 0 ≤ x.wgt := fun x hx => hwgt x (hperm.mem_iff.mpr hx)
  have hlast : last.value = last'.value :=
    le_antisymm (stop_value_le hperm.symm hwgt' hsorted' hsorted hstop' hstop)
      (stop_value_le hperm hwgt hsorted hsorted' hstop hstop')
  by_contra hne
  -- one of the two results is not the value at which both stop
  by_cases hvalue : stopValue (halfWgt l) (totalWgt pre + last.wgt) last rest = last.value
  · have hvalue' : stopValue (halfWgt l) (totalWgt pre' + last'.wgt) last' rest' ≠ last'.value :=
      fun h => hne (hvalue.trans (hlast.trans h.symm))
    have hhalf : halfWgt l = halfWgt l' := by rw [halfWgt, halfWgt, totalWgt_perm hperm]
    rw [hhalf] at hstop hstop' hvalue' hne
    obtain ⟨x, y, z, htie⟩ := exists_splitTie hperm.symm hwgt' hsorted' hsorted hstop' hstop hvalue'
      (Ne.symm hne)
    exact hnone x y z (htie.perm hperm.symm)
  · obtain ⟨x, y, z, htie⟩ := exists_splitTie hperm hwgt hsorted hsorted' hstop hstop' hvalue hne
    exact hnone x y z htie

section Column

variable {nr nc : Nat} {wgt : TcMat K nr 1} {A : TcMat K nr nc} {j : Fin nc} {na : K}

omit [Field K] [IsStrictOrderedRing K] in
/-- Another order of the rows is another order of the values. -/
theorem columnValues_perm (σ : Equiv.Perm (Fin nr)) :
    (columnValues (fun i => wgt (σ i)) (fun i => A (σ i)) j na).Perm (columnValues wgt A j na) := by
  have hrows : columnValues (fun i => wgt (σ i)) (fun i => A (σ i)) j na =
      ((List.finRange nr).map σ).filterMap
        fun i => if A i j = na then none else some ⟨wgt i 0, A i j⟩ := by
    rw [List.filterMap_map]
    rfl
  rw [hrows]
  exact (Equiv.Perm.map_finRange_perm σ).filterMap _

/-- A tie that can be split makes the result depend on the sort. -/
theorem not_sortIndependent (hwgt : ∀ i, 0 ≤ wgt i 0) (hlen : 2 < (columnValues wgt A j na).length)
    {x y z : VecDouble K} (h : SplitTie (columnValues wgt A j na) x y z) :
    ¬SortIndependent wgt A j na := by
  intro hind
  have hnonneg : ∀ x ∈ columnValues wgt A j na, 0 ≤ x.wgt := columnValues_nonneg hwgt
  obtain ⟨pre, post, hperm, hsorted, hpre, hpost⟩ := exists_arrangement h.left
  obtain ⟨pre', post', hperm', hsorted', hpre', hpost'⟩ := exists_arrangement h.right
  obtain ⟨P, hP, hqsort⟩ := exists_platform hperm hsorted
  obtain ⟨P', hP', hqsort'⟩ := exists_platform hperm' hsorted'
  obtain ⟨spre, slast, srest, hstop, hmedian⟩ := tcWgtMedian_stop hP hnonneg hlen
  obtain ⟨spre', slast', srest', hstop', hmedian'⟩ := tcWgtMedian_stop hP' hnonneg hlen
  rw [hqsort] at hstop
  rw [hqsort'] at hstop'
  have hsum := (totalWgt_before hpre hpost).trans (wgtUpTo_perm hperm x.value)
  have hsum' := (totalWgt_before hpre' hpost').trans (wgtUpTo_perm hperm' y.value)
  rw [← h.tie] at hsum'
  have hx := hnonneg x h.left
  have hbefore := h.before
  have hupTo := h.upTo
  -- with `x` last the result is the value, with `y` last it is larger
  have hle : tcWgtMedian P wgt A j na ≤ x.value := by
    rw [hmedian]
    refine stop_le_of_before (fun q hq => hnonneg q (hperm.mem_iff.mp hq)) hpre ?_ ?_ hstop
    · have hy : y ∈ pre ++ x :: post := hperm.mem_iff.mpr h.right
      rcases List.mem_append.mp hy with hy | hy
      · exact List.ne_nil_of_mem hy
      · rcases List.mem_cons.mp hy with rfl | hy
        · exact absurd (hbefore.trans_lt hupTo) (lt_irrefl _)
        · exact absurd h.tie (hpost y hy).ne
    · linarith
  have hlt : x.value < tcWgtMedian P' wgt A j na := by
    rw [hmedian', h.tie]
    have hz : z ∈ post' := by
      have hz : z ∈ pre' ++ y :: post' := hperm'.mem_iff.mpr h.larger
      have hlt := h.tie ▸ h.lt
      rcases List.mem_append.mp hz with hz | hz
      · exact absurd (hpre' z hz) (not_le.mpr hlt)
      · rcases List.mem_cons.mp hz with rfl | hz
        · exact absurd hlt (lt_irrefl _)
        · exact hz
    exact lt_stop_of_upTo hz (fun q hq => hnonneg q (hperm'.mem_iff.mp hq)) hpost' hsum'
      (by linarith) h.near (by linarith) hstop'
  exact absurd (hind P P' hP hP' 1) (hle.trans_lt hlt).ne

/-- **When the median does not depend on the sort**: for at most two values, and when no
tie at half of the weight can be split. -/
theorem sortIndependent_iff (hwgt : ∀ i, 0 ≤ wgt i 0) :
    SortIndependent wgt A j na ↔
      (columnValues wgt A j na).length ≤ 2 ∨ ∀ x y z, ¬SplitTie (columnValues wgt A j na) x y z := by
  constructor
  · intro hind
    by_contra hnot
    push Not at hnot
    obtain ⟨hlen, x, y, z, htie⟩ := hnot
    exact not_sortIndependent hwgt hlen htie hind
  · intro h P P' hP hP' σ
    have hperm : (columnValues (fun i => wgt (σ i)) (fun i => A (σ i)) j na).Perm
        (columnValues wgt A j na) := columnValues_perm σ
    by_cases hlen : (columnValues wgt A j na).length ≤ 2
    · have hlen' := hperm.length_eq.trans_le hlen
      simp only [tcWgtMedian, if_pos hlen, if_pos hlen']
    · have hnone := h.resolve_left hlen
      have hlen := not_le.mp hlen
      have hnonneg : ∀ x ∈ columnValues wgt A j na, 0 ≤ x.wgt := columnValues_nonneg hwgt
      obtain ⟨hsort, hsorted⟩ := hP (columnValues wgt A j na)
      obtain ⟨hsort', hsorted'⟩ := hP' (columnValues (fun i => wgt (σ i)) (fun i => A (σ i)) j na)
      obtain ⟨pre, last, rest, hstop, hmedian⟩ := tcWgtMedian_stop hP hnonneg hlen
      obtain ⟨pre', last', rest', hstop', hmedian'⟩ := tcWgtMedian_stop hP'
        (fun x hx => hnonneg x (hperm.mem_iff.mp hx)) (hlen.trans_eq hperm.length_eq.symm)
      have hhalf : ∀ {l : List (VecDouble K)}, l.Perm (columnValues wgt A j na) →
          halfWgt (columnValues wgt A j na) = halfWgt l := fun hl => by
        rw [halfWgt, halfWgt, totalWgt_perm hl]
      rw [hhalf hsort] at hstop hmedian
      rw [← hhalf hperm, hhalf hsort] at hstop' hmedian'
      have hboth := hsort.trans (hsort'.trans hperm).symm
      have hwgt' : ∀ x ∈ P.qsort (columnValues wgt A j na), 0 ≤ x.wgt :=
        fun x hx => hnonneg x (hsort.mem_iff.mp hx)
      rw [hmedian, hmedian']
      exact stopValue_eq hboth hwgt' hsorted hsorted' hstop hstop'
        fun x y z htie => hnone x y z (htie.perm hsort)

end Column

end Ties

theorem sortsByValue_smallPlatform : smallPlatform.SortsByValue := by
  intro l
  have htotal : Std.Total fun a b : VecDouble ℚ => a.value ≤ b.value :=
    ⟨fun a b => le_total a.value b.value⟩
  have htrans : IsTrans (VecDouble ℚ) fun a b => a.value ≤ b.value :=
    ⟨fun _ _ _ h h' => le_trans h h'⟩
  exact ⟨List.perm_insertionSort _ l, List.pairwise_insertionSort _ l⟩

/-- Voters with equal weights. -/
def equalWeights (n : Nat) : TcMat ℚ n 1 := fun _ _ => 1 / n

/-- The voters answer 1, 2, 3 and so on. -/
def countedValues (n : Nat) : TcMat ℚ n 1 := fun i _ => i.val + 1

theorem isWeightedMedian_three :
    IsWeightedMedian (columnValues (equalWeights 3) (countedValues 3) 0 (-1))
      (tcWgtMedian smallPlatform (equalWeights 3) (countedValues 3) 0 (-1)) :=
  (tcWgtMedian_iff smallPlatform sortsByValue_smallPlatform (equalWeights 3) (countedValues 3) 0
    (-1) (by decide +kernel) (by decide +kernel)).mpr (Or.inl (by decide +kernel))

/-- **Two voters have no median**: they answer 1 and 2, and the result is zero. -/
theorem two_values_no_median :
    0 < totalWgt (columnValues (equalWeights 2) (countedValues 2) 0 (-1)) ∧
    tcWgtMedian smallPlatform (equalWeights 2) (countedValues 2) 0 (-1) = 0 ∧
    ¬IsWeightedMedian (columnValues (equalWeights 2) (countedValues 2) 0 (-1))
      (tcWgtMedian smallPlatform (equalWeights 2) (countedValues 2) 0 (-1)) := by
  have hvalues : ∀ x ∈ columnValues (equalWeights 2) (countedValues 2) 0 (-1), 0 < x.value := by
    intro x hx
    obtain ⟨i, -, hi⟩ := List.mem_filterMap.mp hx
    split_ifs at hi
    obtain rfl := Option.some.inj hi
    exact Nat.cast_add_one_pos i.val
  have hmedian : tcWgtMedian smallPlatform (equalWeights 2) (countedValues 2) 0 (-1) = 0 := by
    decide +kernel
  refine ⟨by decide +kernel, hmedian, fun h => ?_⟩
  rw [hmedian] at h
  obtain ⟨x, hx, hle⟩ := h.lower
  exact absurd hle (not_le.mpr (hvalues x hx))

/-- Voters with equal weights cannot split a tie. -/
theorem sortIndependent_three : SortIndependent (equalWeights 3) (countedValues 3) 0 (-1) := by
  have hnonneg : ∀ i, 0 ≤ equalWeights 3 i 0 := by decide +kernel
  refine (sortIndependent_iff hnonneg).mpr (Or.inr ?_)
  intro x y z h
  have hwgt : ∀ v ∈ columnValues (equalWeights 3) (countedValues 3) 0 (-1), v.wgt = 1 / 3 := by
    intro v hv
    obtain ⟨i, -, hi⟩ := List.mem_filterMap.mp hv
    split_ifs at hi
    obtain rfl := Option.some.inj hi
    rfl
  have hlt := h.before.trans_lt h.upTo
  rw [hwgt x h.left, hwgt y h.right] at hlt
  exact lt_irrefl _ hlt

/-- Of three voters, the second has no weight. -/
def tieWeights : TcMat ℚ 3 1 := fun i _ => if i = 1 then 0 else 1 / 2

/-- The first two answer 1, the third 2. -/
def tieValues : TcMat ℚ 3 1 := fun i _ => if i = 2 then 2 else 1

/-- **The order of the rows matters**: the median is 1, and 3/2 when the first two voters
change places. -/
theorem tie_order_matters :
    tcWgtMedian smallPlatform tieWeights tieValues 0 (-1) = 1 ∧
    tcWgtMedian smallPlatform (fun i => tieWeights (Equiv.swap 0 1 i))
      (fun i => tieValues (Equiv.swap 0 1 i)) 0 (-1) = 3 / 2 ∧
    ¬SortIndependent tieWeights tieValues 0 (-1) := by
  have hone : tcWgtMedian smallPlatform tieWeights tieValues 0 (-1) = 1 := by decide +kernel
  have hother : tcWgtMedian smallPlatform (fun i => tieWeights (Equiv.swap 0 1 i))
      (fun i => tieValues (Equiv.swap 0 1 i)) 0 (-1) = 3 / 2 := by decide +kernel
  refine ⟨hone, hother, fun h => ?_⟩
  have heq := h smallPlatform smallPlatform sortsByValue_smallPlatform sortsByValue_smallPlatform
    (Equiv.swap 0 1)
  rw [hone, hother] at heq
  norm_num at heq

end Hivemind
