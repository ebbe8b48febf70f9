import Mathlib.Order.Basic

/-!
# Loops that try again

A loop whose turn fails, is done, or tries again with a new state.  It runs on fuel; where each
turn lowers a measure, some fuel is enough.

The measure belongs to the states that are reached, not to all states of the type: an invariant
may be needed to see that a turn lowers it.  `Reaches` lists those states from the start, and the
hypothesis of the theorem is about turns from them.  A result comes with the turn that gave it
and the state in which that turn began, so that what is known of a single turn is known of the
result.

* `retry`: the loop from turn `k` on, with a number of turns as fuel.
* `Reaches`: the states in which turns begin.
* `retry_ends`: **the loop ends**, and a result is that of a turn that was reached.
-/

namespace Retry

variable {ε α σ : Type} (body : Nat → σ → Except ε (α ⊕ σ))

/-- The loop from turn `k` on, or `none` where the fuel is used up. -/
def retry : Nat → Nat → σ → Option (Except ε α)
  | 0, _, _ => none
  | fuel + 1, k, s =>
      match body k s with
      | .error e => some (.error e)
      | .ok (.inl a) => some (.ok a)
      | .ok (.inr s') => retry fuel (k + 1) s'

/-- Turn `k` begins in state `s`. -/
inductive Reaches (start : σ) : Nat → σ → Prop
  | start : Reaches start 0 start
  | again {k : Nat} {s s' : σ} : Reaches start k s → body k s = .ok (.inr s') →
      Reaches start (k + 1) s'

variable {body} {start : σ}

/-- **A measure that every turn lowers ends the loop.** -/
theorem retry_ends (μ : σ → Nat)
    (hlower : ∀ k s s', Reaches body start k s → body k s = .ok (.inr s') → μ s' < μ s) :
    ∃ fuel r, retry body fuel 0 start = some r ∧
      ∀ a, r = .ok a → ∃ k s, Reaches body start k s ∧ body k s = .ok (.inl a) := by
  have hfrom : ∀ n k s, μ s < n → Reaches body start k s →
      ∃ r, retry body n k s = some r ∧
        ∀ a, r = .ok a → ∃ k s, Reaches body start k s ∧ body k s = .ok (.inl a) := by
    intro n
    induction n with
    | zero => exact fun k s hlt => absurd hlt (Nat.not_lt_zero _)
    | succ n ih =>
        intro k s hlt hreach
        cases hbody : body k s with
        | error e => exact ⟨.error e, by rw [retry, hbody], fun a ha => by cases ha⟩
        | ok next =>
            cases next with
            | inl a =>
                refine ⟨.ok a, by rw [retry, hbody], fun b hb => ?_⟩
                obtain rfl := Except.ok.inj hb
                exact ⟨k, s, hreach, hbody⟩
            | inr s' =>
                have hless := hlower k s s' hreach hbody
                obtain ⟨r, hr, hresult⟩ := ih (k + 1) s' (by omega) (hreach.again hbody)
                exact ⟨r, by rw [retry, hbody]; exact hr, hresult⟩
  obtain ⟨r, hr⟩ := hfrom (μ start + 1) 0 start (Nat.lt_succ_self _) .start
  exact ⟨_, r, hr⟩

end Retry
