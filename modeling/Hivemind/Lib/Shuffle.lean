import Mathlib.Data.List.Basic
import Mathlib.Data.List.Perm.Basic
import Mathlib.Order.Lattice

/-!
# Drawing from the front of a list

A shuffle of the first places of a list: turn `i` exchanges place `i` with a place that is drawn
from those not before it.  An entry that has come to its place stays there.

The draws are arbitrary numbers, one for each turn, and a draw that leads behind the end of the
list exchanges nothing.  So everything here holds for any source of random numbers, and says
which entry a turn draws in terms of the list before that turn: a caller that looks at the list
after the turn may compare the place that was drawn from with the place it came to.

* `exchange`, `shuffle`: one turn, and a number of them.
* `shuffle_perm`: the entries stay the same.
* `getElem?_shuffle`: **the entry of a turn** is at its place from then on.
* `drawn_eq`: what a turn draws.
* `IsFirstLeast`: the first turn with the least value, kept by a running comparison.
-/

namespace Shuffles

variable {α : Type}

/-- Two places exchanged, if there are both. -/
def exchange (v : List α) (p i : Nat) : List α :=
  (v[p]?.bind fun x => v[i]?.map fun y => (v.set p y).set i x).getD v

theorem exchange_eq {v : List α} {p i : Nat} {x y : α} (hp : v[p]? = some x)
    (hi : v[i]? = some y) : exchange v p i = (v.set p y).set i x := by
  simp [exchange, hp, hi]

theorem exchange_perm (v : List α) (p i : Nat) : (exchange v p i).Perm v := by
  cases hp : v[p]? with
  | none => simp [exchange, hp]
  | some x =>
      cases hi : v[i]? with
      | none => simp [exchange, hi]
      | some y =>
          obtain ⟨hplt, rfl⟩ := List.getElem?_eq_some_iff.mp hp
          obtain ⟨hilt, rfl⟩ := List.getElem?_eq_some_iff.mp hi
          rw [exchange_eq hp hi]
          exact List.set_set_perm hplt hilt

/-- Other places stay. -/
theorem getElem?_exchange_of_ne {v : List α} {p i k : Nat} (hp : k ≠ p) (hi : k ≠ i) :
    (exchange v p i)[k]? = v[k]? := by
  cases hvp : v[p]? with
  | none => simp [exchange, hvp]
  | some x =>
      cases hvi : v[i]? with
      | none => simp [exchange, hvi]
      | some y =>
          rw [exchange_eq hvp hvi, List.getElem?_set_ne (Ne.symm hi),
            List.getElem?_set_ne (Ne.symm hp)]

/-- The list after `n` turns. -/
def shuffle (draw : Nat → Nat) (v : List α) : Nat → List α
  | 0 => v
  | i + 1 => exchange (shuffle draw v i) (draw i) i

/-- The entry that turn `i` draws. -/
def drawn (draw : Nat → Nat) (v : List α) (i : Nat) : Option α := (shuffle draw v (i + 1))[i]?

variable {draw : Nat → Nat}

theorem shuffle_perm (draw : Nat → Nat) (v : List α) (n : Nat) : (shuffle draw v n).Perm v := by
  induction n with
  | zero => exact List.Perm.refl _
  | succ n ih => exact (exchange_perm ..).trans ih

@[simp] theorem length_shuffle (draw : Nat → Nat) (v : List α) (n : Nat) :
    (shuffle draw v n).length = v.length := (shuffle_perm draw v n).length_eq

/-- **The entry of a turn stays at its place.** -/
theorem getElem?_shuffle (hdraw : ∀ i, i ≤ draw i) (v : List α) {i n : Nat} (hi : i < n) :
    (shuffle draw v n)[i]? = drawn draw v i := by
  induction n with
  | zero => omega
  | succ n ih =>
      rcases Nat.lt_succ_iff_lt_or_eq.mp hi with hlt | rfl
      · have := hdraw n
        rw [shuffle, getElem?_exchange_of_ne (by omega) (by omega), ih hlt]
      · rfl

/-- What turn `i` draws. -/
theorem drawn_eq {v : List α} {i : Nat} (hdraw : draw i < v.length) (hi : i < v.length) :
    drawn draw v i = (shuffle draw v i)[draw i]? := by
  have hlen := length_shuffle draw v i
  have hp := List.getElem?_eq_getElem (l := shuffle draw v i) (i := draw i) (by omega)
  have hat := List.getElem?_eq_getElem (l := shuffle draw v i) (i := i) (by omega)
  rw [drawn, shuffle, exchange_eq hp hat, List.getElem?_set_self (by simp [hlen, hi]), hp]

/-! ## The first least value -/

variable {β : Type} [LinearOrder β]

/-- `j` is the first of the places below `n` with the least value. -/
def IsFirstLeast (f : Nat → β) (n j : Nat) : Prop :=
  j < n ∧ (∀ i < j, f j < f i) ∧ ∀ i < n, f j ≤ f i

variable {f g : Nat → β} {n j k : Nat}

theorem isFirstLeast_one (f : Nat → β) : IsFirstLeast f 1 0 :=
  ⟨Nat.one_pos, fun i hi => absurd hi (Nat.not_lt_zero i),
    fun i hi => by rw [Nat.lt_one_iff.mp hi]⟩

/-- One value more. -/
theorem IsFirstLeast.succ (h : IsFirstLeast f n j) :
    IsFirstLeast f (n + 1) (if f n < f j then n else j) := by
  obtain ⟨hj, hfirst, hleast⟩ := h
  split_ifs with hlt
  · refine ⟨Nat.lt_succ_self n, fun i hi => hlt.trans_le (hleast i hi), fun i hi => ?_⟩
    rcases Nat.lt_succ_iff_lt_or_eq.mp hi with hi | rfl
    · exact hlt.le.trans (hleast i hi)
    · exact le_rfl
  · refine ⟨Nat.lt_succ_of_lt hj, hfirst, fun i hi => ?_⟩
    rcases Nat.lt_succ_iff_lt_or_eq.mp hi with hi | rfl
    · exact hleast i hi
    · exact not_lt.mp hlt

theorem IsFirstLeast.unique (hj : IsFirstLeast f n j) (hk : IsFirstLeast f n k) : j = k := by
  rcases Nat.lt_trichotomy j k with hlt | heq | hlt
  · exact absurd (hk.2.1 j hlt) (not_lt.mpr (hj.2.2 k hk.1))
  · exact heq
  · exact absurd (hj.2.1 k hlt) (not_lt.mpr (hk.2.2 j hj.1))

theorem IsFirstLeast.congr (hfg : ∀ i < n, f i = g i) (h : IsFirstLeast f n j) :
    IsFirstLeast g n j := by
  obtain ⟨hj, hfirst, hleast⟩ := h
  refine ⟨hj, fun i hi => ?_, fun i hi => ?_⟩
  · rw [← hfg j hj, ← hfg i (Nat.lt_trans hi hj)]
    exact hfirst i hi
  · rw [← hfg j hj, ← hfg i hi]
    exact hleast i hi

end Shuffles
