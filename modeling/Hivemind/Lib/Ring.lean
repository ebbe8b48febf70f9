import Mathlib.Data.List.Basic
import Mathlib.Data.Nat.ModEq
import Mathlib.Tactic.SplitIfs

/-!
# Ring buffers

A ring buffer of `size` places over a source: place `k % size` holds entry `k` of the source, for
the last `size` entries below a mark.

A buffered reader stores what it reads at the next places and reads back from any place that is
still held.  Both work on pieces that do not run past the end of the ring, so that the places of
a piece are consecutive; a reader cuts its requests at the end of the ring, and the lemmas have
that as a hypothesis.  What was there before the mark is overwritten exactly when it is `size`
entries behind.

* `store`, `slice`: writing at some places, and reading them.
* `Window`: the ring holds the last entries of the source below the mark.
* `Window.store`: **storing the next entries** moves the mark.
* `Window.slice_eq`: **a slice of the ring** is a slice of the source.
-/

namespace Ring

variable {α : Type} {size : Nat}

/-- The contents after `xs` has been stored from place `pos` on. -/
def store (buf : Nat → α) (pos : Nat) (xs : List α) : Nat → α :=
  fun i => if h : pos ≤ i ∧ i - pos < xs.length then xs.get ⟨i - pos, h.2⟩ else buf i

/-- `n` places from `pos` on. -/
def slice (buf : Nat → α) (pos n : Nat) : List α := (List.range n).map fun j => buf (pos + j)

/-- The ring holds the last `size` entries of the source below `hi`. -/
def Window (size : Nat) (buf : Nat → α) (src : List α) (hi : Nat) : Prop :=
  ∀ k < hi, hi ≤ k + size → src[k]? = some (buf (k % size))

theorem window_zero (buf : Nat → α) (src : List α) : Window size buf src 0 :=
  fun k hk => absurd hk (Nat.not_lt_zero k)

theorem length_slice (buf : Nat → α) (pos n : Nat) : (slice buf pos n).length = n := by
  rw [slice, List.length_map, List.length_range]

/-- Places that do not run past the end of the ring are consecutive. -/
theorem mod_add {k j : Nat} (h : k % size + j < size) : (k + j) % size = k % size + j := by
  rw [Nat.add_mod, Nat.mod_eq_of_lt (by omega : j < size), Nat.mod_eq_of_lt h]

/-- Two entries less than `size` apart have places of their own. -/
theorem mod_ne {k l : Nat} (hlt : k < l) (hnear : l < k + size) : k % size ≠ l % size := by
  intro heq
  have hdvd : size ∣ l - k := (Nat.modEq_iff_dvd' hlt.le).mp heq
  have hle := Nat.le_of_dvd (Nat.sub_pos_of_lt hlt) hdvd
  omega

/-- **Storing the next entries of the source moves the mark.** -/
theorem Window.store {buf : Nat → α} {src xs : List α} {hi : Nat}
    (h : Window size buf src hi) (hxs : xs = (src.drop hi).take xs.length)
    (hfit : hi % size + xs.length ≤ size) :
    Window size (Ring.store buf (hi % size) xs) src (hi + xs.length) := by
  intro k hk hnear
  rcases Nat.lt_or_ge k hi with hold | hnew
  · -- the place of an old entry is not among those that were written
    have hout : ¬ (hi % size ≤ k % size ∧ k % size - hi % size < xs.length) := by
      rintro ⟨hle, hlt⟩
      have hplace : (hi + (k % size - hi % size)) % size = k % size := by
        rw [mod_add (by omega)]
        omega
      exact mod_ne (by omega) (by omega) hplace.symm
    rw [Ring.store, dif_neg hout]
    exact h k hold (by omega)
  · obtain ⟨j, rfl⟩ := Nat.exists_eq_add_of_le hnew
    have hj : j < xs.length := by omega
    have hplace : (hi + j) % size = hi % size + j := mod_add (by omega)
    have hin : hi % size ≤ (hi + j) % size ∧ (hi + j) % size - hi % size < xs.length := by omega
    have hentry : src[hi + j]? = xs[j]? := by
      rw [hxs, List.getElem?_take_of_lt hj, List.getElem?_drop]
    rw [hentry, Ring.store, dif_pos hin, List.getElem?_eq_getElem hj]
    simp [hplace]

/-- **A slice of the ring is a slice of the source.** -/
theorem Window.slice_eq {buf : Nat → α} {src : List α} {hi k n : Nat}
    (h : Window size buf src hi) (hn : k + n ≤ hi) (hnear : hi ≤ k + size)
    (hfit : k % size + n ≤ size) : slice buf (k % size) n = (src.drop k).take n := by
  apply List.ext_getElem?
  intro j
  rcases Nat.lt_or_ge j n with hj | hj
  · rw [List.getElem?_take_of_lt hj, List.getElem?_drop, h (k + j) (by omega) (by omega),
      mod_add (by omega), slice, List.getElem?_map, List.getElem?_range hj]
    rfl
  · rw [List.getElem?_eq_none (by rw [length_slice]; exact hj),
      List.getElem?_eq_none (by rw [List.length_take]; omega)]

end Ring
