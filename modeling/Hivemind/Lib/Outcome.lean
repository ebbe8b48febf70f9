import Mathlib.Data.List.Forall2
import Mathlib.Tactic.SplitIfs

/-!
# Computations that may fail

Facts about `Except` for functions that are a sequence of checks: when a sequence succeeds, and
which failures it cannot end in.

A function with a dozen checks is proved correct by taking it apart at its binds, not by cases on
every check.  The lemmas on success are stated as equivalences, so that one of them turns "the
whole returned this" into "the first returned this, and the rest that".  A loop over indices is a
function of its own, with the invariant rule that one expects of a loop.

* `bind_eq_ok`, `map_eq_ok`, `mapM_eq_ok`: a sequence succeeds when each step does.
* `forLoop`, `forLoop_ok`, `forLoop_inv`: a loop over indices, with the rules for its invariants:
  one for loops whose turns succeed, and one for loops that have succeeded.
* `forLoop_error_of_le`: a loop that has failed stays failed.
* `Avoids`: no failure of a certain kind, with one rule for each way to put computations
  together.
-/

namespace Outcomes

variable {ε α β : Type}

/-! ## Success -/

/-- A sequence of two steps succeeds when both do. -/
@[simp] theorem bind_eq_ok {x : Except ε α} {f : α → Except ε β} {b : β} :
    (x >>= f) = .ok b ↔ ∃ a, x = .ok a ∧ f a = .ok b := by
  cases x with
  | error e => simp [bind, Except.bind]
  | ok a => simp [bind, Except.bind]

@[simp] theorem map_eq_ok {x : Except ε α} {f : α → β} {b : β} :
    x.map f = .ok b ↔ ∃ a, x = .ok a ∧ f a = b := by
  cases x with
  | error e => simp [Except.map]
  | ok a => simp [Except.map]

@[simp] theorem mapError_eq_ok {ε' : Type} {x : Except ε α} {f : ε → ε'} {a : α} :
    x.mapError f = .ok a ↔ x = .ok a := by
  cases x with
  | error e => simp [Except.mapError]
  | ok a => simp [Except.mapError]

@[simp] theorem toOption_eq_some {x : Except ε α} {a : α} :
    x.toOption = some a ↔ x = .ok a := by
  cases x with
  | error e => simp [Except.toOption]
  | ok a => simp [Except.toOption]

/-- A computation for each element of a list succeeds when each of them does. -/
theorem mapM_eq_ok {f : α → Except ε β} {l : List α} {ys : List β} :
    l.mapM f = .ok ys ↔ List.Forall₂ (fun x y => f x = .ok y) l ys := by
  induction l generalizing ys with
  | nil => simp [pure, Except.pure, eq_comm]
  | cons x l ih =>
      simp only [List.mapM_cons, bind_eq_ok, ih, List.forall₂_cons_left_iff]
      constructor
      · rintro ⟨y, hy, ys', hys, ⟨⟩⟩
        exact ⟨y, ys', hy, hys, rfl⟩
      · rintro ⟨y, ys', hy, hys, rfl⟩
        exact ⟨y, hy, ys', hys, rfl⟩

/-! ## Loops over indices -/

/-- The body for every index below a bound, in order. -/
def forLoop (body : Nat → α → Except ε α) : Nat → α → Except ε α
  | 0, a => .ok a
  | n + 1, a => do
    let a ← forLoop body n a
    body n a

/-- An invariant of the turns holds after the loop, and the loop ends. -/
theorem forLoop_ok {body : Nat → α → Except ε α} {n : Nat} {a : α} (Inv : Nat → α → Prop)
    (hstart : Inv 0 a)
    (hturn : ∀ i < n, ∀ a, Inv i a → ∃ a', body i a = .ok a' ∧ Inv (i + 1) a') :
    ∃ a', forLoop body n a = .ok a' ∧ Inv n a' := by
  induction n with
  | zero => exact ⟨a, rfl, hstart⟩
  | succ n ih =>
      obtain ⟨b, hb, hinv⟩ := ih fun i hi => hturn i (Nat.lt_succ_of_lt hi)
      obtain ⟨c, hc, hinv'⟩ := hturn n (Nat.lt_succ_self n) b hinv
      exact ⟨c, by simp [forLoop, hb, hc, bind, Except.bind], hinv'⟩

/-- What each turn that succeeds keeps holds after the loop. -/
theorem forLoop_inv {body : Nat → α → Except ε α} {n : Nat} {a a' : α} (Inv : Nat → α → Prop)
    (h : forLoop body n a = .ok a') (hstart : Inv 0 a)
    (hturn : ∀ i b b', Inv i b → body i b = .ok b' → Inv (i + 1) b') : Inv n a' := by
  induction n generalizing a' with
  | zero =>
      obtain rfl := Except.ok.inj h
      exact hstart
  | succ n ih =>
      simp only [forLoop, bind_eq_ok] at h
      obtain ⟨b, hb, hbody⟩ := h
      exact hturn n b a' (ih hb) hbody

/-- A loop that has failed stays failed. -/
theorem forLoop_error_of_le {body : Nat → α → Except ε α} {m n : Nat} {a : α} {e : ε}
    (h : forLoop body m a = .error e) (hle : m ≤ n) : forLoop body n a = .error e := by
  induction hle with
  | refl => exact h
  | step _ ih => simp [forLoop, ih, bind, Except.bind]

/-! ## Failures that do not happen -/

/-- The computation does not end in a failure that is `bad`. -/
structure Avoids (bad : ε → Prop) (x : Except ε α) : Prop where
  not_bad : ∀ e, x = .error e → ¬ bad e

namespace Avoids

variable {bad : ε → Prop}

theorem ok (a : α) : Avoids bad (.ok a) := ⟨fun _ h => nomatch h⟩

theorem error {e : ε} (h : ¬ bad e) : Avoids bad (.error e : Except ε α) := by
  refine ⟨?_⟩
  rintro e' ⟨⟩
  exact h

theorem bind {x : Except ε α} {f : α → Except ε β} (hx : Avoids bad x)
    (hf : ∀ a, x = .ok a → Avoids bad (f a)) : Avoids bad (x >>= f) := by
  cases x with
  | error e => exact ⟨fun e' h => hx.not_bad e' (by simpa [Bind.bind, Except.bind] using h)⟩
  | ok a => exact hf a rfl

theorem map {x : Except ε α} {f : α → β} (hx : Avoids bad x) : Avoids bad (x.map f) := by
  cases x with
  | error e => exact ⟨fun e' h => hx.not_bad e' (by simpa [Except.map] using h)⟩
  | ok a => exact ok _

theorem ite {p : Prop} [Decidable p] {x y : Except ε α} (hx : Avoids bad x) (hy : Avoids bad y) :
    Avoids bad (if p then x else y) := by
  split_ifs
  · exact hx
  · exact hy

/-- A loop that avoids a failure in each turn avoids it. -/
theorem foldlM {γ : Type} {f : α → γ → Except ε α} (hf : ∀ a c, Avoids bad (f a c)) (l : List γ)
    (a : α) : Avoids bad (l.foldlM f a) := by
  induction l generalizing a with
  | nil => exact ok a
  | cons c l ih =>
      rw [List.foldlM_cons]
      exact bind (hf a c) fun a' _ => ih a'

end Avoids
end Outcomes
