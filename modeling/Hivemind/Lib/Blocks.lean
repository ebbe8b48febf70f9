import Mathlib.Data.List.Basic

/-!
# Taking in a list block by block

A machine that takes in blocks of `n` elements works on the whole blocks of a list and leaves the
rest.  `T` is what it does with a block; nothing is assumed of it.

The list may be handed over in pieces of any length.  A machine that keeps what is left over in a
buffer, and completes it with the start of the next piece, is to end in the same state as one
that gets the list at once.  The two lemmas at the end are the two cases of such a step: either
the new elements do not complete the block, and only the rest grows, or they do, and the block is
taken in.

* `absorb`, `whole`, `rest`: a number of blocks, all whole blocks, and what is left.
* `absorb_append`: blocks do not depend on what comes after them.
* `whole_append_lt`, `whole_append_block`: **more elements**, up to a block and just to its end.
-/

namespace Blocks

variable {σ α : Type*} (T : σ → List α → σ) (n : Nat)

/-- Take in some blocks. -/
def absorb : Nat → σ → List α → σ
  | 0, s, _ => s
  | k + 1, s, m => absorb k (T s (m.take n)) (m.drop n)

/-- Take in all whole blocks. -/
def whole (s : σ) (m : List α) : σ := absorb T n (m.length / n) s m

/-- What is left of the list. -/
def rest (m : List α) : List α := m.drop (n * (m.length / n))

theorem whole_nil (s : σ) : whole T n s [] = s := by simp [whole, absorb]

theorem absorb_add (j k : Nat) (s : σ) (m : List α) :
    absorb T n (j + k) s m = absorb T n k (absorb T n j s m) (m.drop (n * j)) := by
  induction j generalizing s m with
  | zero => simp [absorb]
  | succ j ih =>
      rw [Nat.succ_add, absorb, ih, absorb, List.drop_drop]
      congr 2
      rw [Nat.mul_succ, Nat.add_comm]

/-- The blocks do not depend on what comes after them. -/
theorem absorb_append (k : Nat) (s : σ) (m x : List α) (h : n * k ≤ m.length) :
    absorb T n k s (m ++ x) = absorb T n k s m := by
  induction k generalizing s m with
  | zero => rfl
  | succ k ih =>
      rw [Nat.mul_succ] at h
      rw [absorb, absorb, List.take_append_of_le_length (by omega),
        List.drop_append_of_le_length (by omega), ih]
      rw [List.length_drop]
      omega

variable {n} {m x : List α}

theorem length_rest : (rest n m).length = m.length % n := by
  rw [rest, List.length_drop]
  have := Nat.div_add_mod m.length n
  omega

theorem mul_div_le_length : n * (m.length / n) ≤ m.length := Nat.mul_div_le _ _

/-- Less than what completes a block stays behind. -/
theorem whole_append_lt (s : σ) (h : m.length % n + x.length < n) :
    whole T n s (m ++ x) = whole T n s m ∧ rest n (m ++ x) = rest n m ++ x := by
  have hdiv : (m ++ x).length / n = m.length / n := by
    rw [List.length_append]
    have hlen := Nat.div_add_mod m.length n
    apply Nat.div_eq_of_lt_le
    · rw [Nat.mul_comm]
      omega
    · rw [Nat.succ_mul, Nat.mul_comm]
      omega
  constructor
  · rw [whole, hdiv, absorb_append T n _ s m x mul_div_le_length]
    rfl
  · rw [rest, hdiv, List.drop_append_of_le_length mul_div_le_length]
    rfl

/-- What completes a block is taken in with what was left. -/
theorem whole_append_block (s : σ) (hn : 0 < n) (h : m.length % n + x.length = n) :
    whole T n s (m ++ x) = T (whole T n s m) (rest n m ++ x) ∧ rest n (m ++ x) = [] := by
  have hlen := Nat.div_add_mod m.length n
  have hdiv : (m ++ x).length / n = m.length / n + 1 := by
    rw [List.length_append]
    apply Nat.div_eq_of_lt_le
    · rw [Nat.succ_mul, Nat.mul_comm]
      omega
    · rw [Nat.succ_mul, Nat.succ_mul, Nat.mul_comm]
      omega
  constructor
  · rw [whole, hdiv, absorb_add, absorb_append T n _ s m x mul_div_le_length,
      List.drop_append_of_le_length mul_div_le_length]
    have hblock : (m.drop (n * (m.length / n)) ++ x).length ≤ n := by
      rw [List.length_append, List.length_drop]
      omega
    rw [absorb, absorb, List.take_of_length_le hblock]
    rfl
  · apply List.eq_nil_of_length_eq_zero
    rw [length_rest, List.length_append, ← hlen, Nat.add_assoc, h, Nat.mul_add_mod, Nat.mod_self]

end Blocks
