import Mathlib.Data.List.GetD
import Mathlib.Data.List.Sort

/-!
# Order statistics of a list

The entry at a place of the sorted list is bounded by counting: it is at least `v` when few
enough entries are below `v`.  In this form a bound says nothing of the order in which the
entries came, and two lists are compared by comparing counts.

A window of the last entries of a sequence loses some entries at one end and gets one at the
other.  Its median can only fall when the new entry is below it, whatever left; that is what
makes a rule of the form "the next entry must be above the median" keep the median from falling.

* `le_getD_iff`: an entry of a sorted list is at least `v` if no more are below `v`.
* `median`: the entry in the middle, the upper one of two.
* `median_le_median`: **a window that moves on** and gets an entry that is not below its median.
-/

namespace OrderStat

variable {α : Type} [LinearOrder α]

/-- In a sorted list the entry at place `i` is at least `v` exactly when at most `i` entries
are below `v`. -/
theorem le_getD_iff {l : List α} (hl : l.Pairwise (· ≤ ·)) {i : Nat} (hi : i < l.length)
    (v d : α) : v ≤ l.getD i d ↔ l.countP (fun x => decide (x < v)) ≤ i := by
  induction l generalizing i with
  | nil => simp at hi
  | cons x xs ih =>
      obtain ⟨hx, hxs⟩ := List.pairwise_cons.mp hl
      by_cases hlt : x < v
      · rw [List.countP_cons_of_pos (by simpa using hlt)]
        cases i with
        | zero =>
            rw [List.getD_cons_zero]
            exact iff_of_false (not_le.mpr hlt) (by omega)
        | succ i =>
            rw [List.getD_cons_succ, ih hxs (Nat.lt_of_succ_lt_succ hi)]
            omega
      · -- all entries are at least `v`
        have hall : ∀ y ∈ x :: xs, v ≤ y := by
          intro y hy
          rcases List.mem_cons.mp hy with rfl | hy
          · exact not_lt.mp hlt
          · exact (not_lt.mp hlt).trans (hx y hy)
        have hcount : (x :: xs).countP (fun x => decide (x < v)) = 0 :=
          List.countP_eq_zero.mpr fun y hy => by simpa using hall y hy
        rw [hcount]
        refine iff_of_true ?_ (Nat.zero_le _)
        rw [List.getD_eq_getElem _ _ hi]
        exact hall _ (List.getElem_mem hi)

/-- The entry in the middle of the sorted list, the upper one of two. -/
def median (d : α) (l : List α) : α := (l.insertionSort (· ≤ ·)).getD (l.length / 2) d

theorem le_median_iff {l : List α} (hl : l ≠ []) (v d : α) :
    v ≤ median d l ↔ l.countP (fun x => decide (x < v)) ≤ l.length / 2 := by
  have hpos : 0 < l.length := List.length_pos_iff.mpr hl
  rw [median, le_getD_iff (List.pairwise_insertionSort (· ≤ ·) l)
    (by rw [List.length_insertionSort]; omega), (List.perm_insertionSort (· ≤ ·) l).countP_eq]

/-- **A window that moves on**: entries may leave it, and one that is not below its median
comes in. -/
theorem median_le_median {l k : List α} {t d : α} (hl : l ≠ []) (hsub : k.Sublist l)
    (hlen : l.length ≤ k.length + 1) (ht : median d l ≤ t) :
    median d l ≤ median d (t :: k) := by
  have hcount := (le_median_iff hl (median d l) d).mp le_rfl
  have hless := hsub.countP_le (p := fun x => decide (x < median d l))
  rw [le_median_iff (List.cons_ne_nil t k),
    List.countP_cons_of_neg (by simpa using ht), List.length_cons]
  omega

end OrderStat
