import Hivemind.Primitives.Basic
import Mathlib.Algebra.BigOperators.Group.List.Basic
import Mathlib.Algebra.Group.Defs

/-!
# Sums of amounts

Amounts are added modulo `2 ^ 64`, so they form a group: a sum of amounts does not depend on the
order, and a difference takes back what was added, whether or not something wrapped on the way.
Balances are therefore proved as equations between amounts, with no bound.

What the numbers mean is another question, and needs one.  Where the amounts are not negative and
sum to at most `MAX_MONEY`, nothing is lost, and the sum of the amounts is the sum of the
integers.  `Bounded` says both, of a list, and passes to every part of it.

* `integerSum`: the sum of amounts as integers.
* `Bounded`: amounts that are not negative and sum to at most `MAX_MONEY`.
* `toInt_sum`: **a bounded sum is the sum of the integers.**
-/

namespace Hivemind

instance instAddCommGroupAmount : AddCommGroup CAmount where
  add_assoc := Int64.add_assoc
  zero_add := Int64.zero_add
  add_zero := Int64.add_zero
  add_comm := Int64.add_comm
  neg_add_cancel := Int64.add_left_neg
  sub_eq_add_neg := Int64.sub_eq_add_neg
  nsmul := nsmulRec
  zsmul := zsmulRec

/-- The sum of amounts as integers. -/
def integerSum (l : List CAmount) : Int := (l.map Int64.toInt).sum

@[simp] theorem integerSum_nil : integerSum [] = 0 := rfl

@[simp] theorem integerSum_cons (v : CAmount) (l : List CAmount) :
    integerSum (v :: l) = v.toInt + integerSum l := rfl

@[simp] theorem integerSum_append (l l' : List CAmount) :
    integerSum (l ++ l') = integerSum l + integerSum l' := by
  simp [integerSum]

theorem integerSum_perm {l l' : List CAmount} (h : l.Perm l') : integerSum l = integerSum l' :=
  (h.map _).sum_eq

/-- Amounts that are not negative and sum to at most `MAX_MONEY`. -/
structure Bounded (l : List CAmount) : Prop where
  nonneg : ∀ v ∈ l, 0 ≤ v.toInt
  sum_le : integerSum l ≤ 2100000000000000

theorem integerSum_nonneg {l : List CAmount} (h : ∀ v ∈ l, 0 ≤ v.toInt) : 0 ≤ integerSum l := by
  induction l with
  | nil => exact le_refl 0
  | cons v l ih =>
      have hv := h v List.mem_cons_self
      have hl := ih fun w hw => h w (List.mem_cons_of_mem v hw)
      rw [integerSum_cons]
      omega

theorem integerSum_sublist {l l' : List CAmount} (h : l.Sublist l')
    (hnonneg : ∀ v ∈ l', 0 ≤ v.toInt) : integerSum l ≤ integerSum l' := by
  induction h with
  | slnil => exact le_refl 0
  | cons v _ ih =>
      have hv := hnonneg v List.mem_cons_self
      have := ih fun w hw => hnonneg w (List.mem_cons_of_mem v hw)
      rw [integerSum_cons]
      omega
  | cons_cons v _ ih =>
      have := ih fun w hw => hnonneg w (List.mem_cons_of_mem v hw)
      rw [integerSum_cons, integerSum_cons]
      omega

namespace Bounded

variable {l l' : List CAmount}

theorem sublist (h : Bounded l) (hsub : l'.Sublist l) : Bounded l' where
  nonneg v hv := h.nonneg v (hsub.subset hv)
  sum_le := (integerSum_sublist hsub h.nonneg).trans h.sum_le

theorem perm (h : Bounded l) (hperm : l'.Perm l) : Bounded l' where
  nonneg v hv := h.nonneg v (hperm.subset hv)
  sum_le := (integerSum_perm hperm).trans_le h.sum_le

/-- **A bounded sum is the sum of the integers.** -/
theorem toInt_sum (h : Bounded l) : l.sum.toInt = integerSum l := by
  induction l with
  | nil => rfl
  | cons v l ih =>
      have hrest : Bounded l := h.sublist (List.sublist_cons_self v l)
      have hv := h.nonneg v List.mem_cons_self
      have hl := integerSum_nonneg hrest.nonneg
      have hsum := h.sum_le
      rw [integerSum_cons] at hsum ⊢
      have hvRange : moneyRange v = true := moneyRange_iff.mpr ⟨hv, by omega⟩
      have hlRange : moneyRange l.sum = true := by
        rw [moneyRange_iff, ih hrest]
        exact ⟨hl, hrest.sum_le⟩
      rw [List.sum_cons, toInt_add_of_moneyRange hvRange hlRange, ih hrest]

end Bounded

end Hivemind
