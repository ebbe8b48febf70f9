import Mathlib.Algebra.BigOperators.Group.List.Basic
import Mathlib.Algebra.Group.Basic
import Mathlib.Data.List.Basic

/-!
# Marked entries of a list

A list of marks beside a list of entries: a subset of the places, and what the entries there sum
to.  The entries may be of any type; for the sum each has a number.

A search over subsets changes one mark at a time and keeps a running total beside the marks.  The
lemmas say what one such change does to the chosen entries and to their sum, so that the total of
the search is the sum of what is marked at every turn, and so that a place that is marked and
unmarked again leaves nothing behind.

* `chosen`, `markedSum`: the entries whose place is marked, and what they sum to.
* `chosen_set_true`: one place more, one entry more.
* `markedSum_set_true`: the sum after the place is marked.
* `set_set_false`: marking and unmarking a place leaves the marks as they were.
-/

namespace Marks

variable {α M : Type}

/-- The entries whose place is marked. -/
def chosen : List Bool → List α → List α
  | true :: marks, x :: v => x :: chosen marks v
  | false :: marks, _ :: v => chosen marks v
  | _, _ => []

@[simp] theorem chosen_nil_left (v : List α) : chosen [] v = [] := by simp [chosen]

@[simp] theorem chosen_nil_right (marks : List Bool) : chosen marks ([] : List α) = [] := by
  cases marks with
  | nil => rfl
  | cons m marks => cases m <;> rfl

@[simp] theorem chosen_true_cons (marks : List Bool) (x : α) (v : List α) :
    chosen (true :: marks) (x :: v) = x :: chosen marks v := rfl

@[simp] theorem chosen_false_cons (marks : List Bool) (x : α) (v : List α) :
    chosen (false :: marks) (x :: v) = chosen marks v := rfl

theorem chosen_sublist (marks : List Bool) (v : List α) : (chosen marks v).Sublist v := by
  induction marks generalizing v with
  | nil => simp
  | cons m marks ih =>
      cases v with
      | nil => simp
      | cons x v =>
          cases m with
          | true => exact (ih v).cons_cons x
          | false => exact (ih v).cons x

theorem chosen_replicate_true (v : List α) : chosen (List.replicate v.length true) v = v := by
  induction v with
  | nil => rfl
  | cons x v ih => simp [List.replicate_succ, ih]

theorem chosen_replicate_false (n : Nat) (v : List α) :
    chosen (List.replicate n false) v = [] := by
  induction n generalizing v with
  | zero => simp
  | succ n ih =>
      cases v with
      | nil => simp
      | cons x v => simp [List.replicate_succ, ih]

/-- **A place that is marked adds its entry.** -/
theorem chosen_set_true {marks : List Bool} {v : List α} {i : Nat} {x : α}
    (hm : marks[i]? = some false) (hv : v[i]? = some x) :
    (chosen (marks.set i true) v).Perm (x :: chosen marks v) := by
  induction marks generalizing v i with
  | nil => simp at hm
  | cons m marks ih =>
      cases v with
      | nil => simp at hv
      | cons y v =>
          cases i with
          | zero =>
              obtain rfl : m = false := by simpa using hm
              obtain rfl : y = x := by simpa using hv
              exact List.Perm.refl _
          | succ i =>
              have hrest := ih (by simpa using hm) (by simpa using hv)
              cases m with
              | true => exact (hrest.cons y).trans (List.Perm.swap x y _)
              | false => exact hrest

/-- What the marked entries sum to. -/
def markedSum [AddCommMonoid M] (value : α → M) (marks : List Bool) (v : List α) : M :=
  ((chosen marks v).map value).sum

section Sums

variable [AddCommMonoid M] {value : α → M}

theorem markedSum_replicate_true (v : List α) :
    markedSum value (List.replicate v.length true) v = (v.map value).sum := by
  rw [markedSum, chosen_replicate_true]

theorem markedSum_replicate_false (n : Nat) (v : List α) :
    markedSum value (List.replicate n false) v = 0 := by
  rw [markedSum, chosen_replicate_false, List.map_nil, List.sum_nil]

theorem markedSum_set_true {marks : List Bool} {v : List α} {i : Nat} {x : α}
    (hm : marks[i]? = some false) (hv : v[i]? = some x) :
    markedSum value (marks.set i true) v = markedSum value marks v + value x := by
  have hperm := (chosen_set_true hm hv).map value
  rw [markedSum, hperm.sum_eq, List.map_cons, List.sum_cons, add_comm]
  rfl

end Sums

/-- Marking and unmarking a place leaves the marks as they were. -/
theorem set_set_false {marks : List Bool} {i : Nat} (hm : marks[i]? = some false) :
    (marks.set i true).set i false = marks := by
  obtain ⟨hi, hget⟩ := List.getElem?_eq_some_iff.mp hm
  rw [List.set_set, ← hget, List.set_getElem_self hi]

end Marks
