import Mathlib.Algebra.BigOperators.Group.Finset.Basic
import Mathlib.Algebra.GroupWithZero.Nat
import Mathlib.Data.Fintype.BigOperators

/-!
# Runs of a system

A system takes labelled steps, each of which it may refuse.  The step function is executable, a
run is its fold over a list of labels, and a statement about every interleaving is a statement
about every list.

The rules below are the inductions over runs, each stated once: the caller gives what one step
does.  They differ in what a step may rely on: the invariant alone, the label as one of a given
list, a fact about every state on the way that is assumed and not proved, or the promise that the
step is allowed where it is taken.

* `run`: a sequence of steps, which ends when one of them is refused.
* `run_inv_of_mem`, `run_inv`: **what each step keeps, a run keeps.**
* `run_inv_of_usual`: the same while every state on the way is as it usually is.
* `run_total`: **a run whose steps are all allowed goes through** and keeps the invariant.
* `run_turns`: a run has as many turns as a measure allows that they lower.
* `tally`: a total over threads of which a step moves one, with the rule for the move.
-/

namespace Runs

variable {σ α : Type}

/-! ## Sequences of steps -/

/-- The steps one after another. -/
def run (step : σ → α → Option σ) (s : σ) (acts : List α) : Option σ := acts.foldlM step s

variable {step : σ → α → Option σ} {s s' : σ}

@[simp] theorem run_nil : run step s [] = some s := rfl

@[simp] theorem run_cons (a : α) (acts : List α) :
    run step s (a :: acts) = (step s a).bind fun s₁ => run step s₁ acts := by
  simp [run, List.foldlM_cons]

theorem run_cons_eq_some {a : α} {acts : List α} :
    run step s (a :: acts) = some s' ↔ ∃ s₁, step s a = some s₁ ∧ run step s₁ acts = some s' := by
  simp [Option.bind_eq_some_iff]

theorem run_append_eq_some {as bs : List α} :
    run step s (as ++ bs) = some s' ↔
      ∃ s₁, run step s as = some s₁ ∧ run step s₁ bs = some s' := by
  simp [run, List.foldlM_append, Option.bind_eq_some_iff]

/-- **The rule for invariants**: what each step of the run keeps, the run keeps. -/
theorem run_inv_of_mem (Inv : σ → Prop) {acts : List α}
    (hstep : ∀ s, ∀ a ∈ acts, ∀ s', Inv s → step s a = some s' → Inv s') (hs : Inv s)
    (hrun : run step s acts = some s') : Inv s' := by
  induction acts generalizing s with
  | nil =>
      obtain rfl := Option.some.inj hrun
      exact hs
  | cons a acts ih =>
      obtain ⟨s₁, ha, hrun⟩ := run_cons_eq_some.mp hrun
      refine ih (fun s b hb => hstep s b (List.mem_cons_of_mem a hb)) ?_ hrun
      exact hstep s a List.mem_cons_self s₁ hs ha

/-- What each step keeps, a run keeps. -/
theorem run_inv (Inv : σ → Prop) (hstep : ∀ s a s', Inv s → step s a = some s' → Inv s')
    {acts : List α} (hs : Inv s) (hrun : run step s acts = some s') : Inv s' :=
  run_inv_of_mem Inv (fun s a _ => hstep s a) hs hrun

/-- The rule for invariants that are kept while every state on the way is `Usual`. -/
theorem run_inv_of_usual (Inv Usual : σ → Prop)
    (hstep : ∀ s a s', Inv s → Usual s → step s a = some s' → Inv s') {acts : List α}
    (hs : Inv s) (hrun : run step s acts = some s')
    (husual : ∀ pre s₁, pre <+: acts → run step s pre = some s₁ → Usual s₁) : Inv s' := by
  induction acts generalizing s with
  | nil =>
      obtain rfl := Option.some.inj hrun
      exact hs
  | cons a acts ih =>
      obtain ⟨s₁, ha, hrun⟩ := run_cons_eq_some.mp hrun
      refine ih (hstep s a s₁ hs (husual [] s (List.nil_prefix) rfl) ha) hrun ?_
      intro pre s₂ hpre hpre_run
      exact husual (a :: pre) s₂ (by simpa using hpre) (run_cons_eq_some.mpr ⟨s₁, ha, hpre_run⟩)

/-- **The rule for runs that go through**: a step that is allowed where the invariant holds is
not refused and keeps it. -/
theorem run_total (Inv : σ → Prop) (Allowed : σ → α → Prop)
    (hstep : ∀ s a, Inv s → Allowed s a → ∃ s', step s a = some s' ∧ Inv s') {acts : List α}
    (hs : Inv s)
    (hallowed : ∀ pre a s₁, pre ++ [a] <+: acts → run step s pre = some s₁ → Allowed s₁ a) :
    ∃ s', run step s acts = some s' ∧ Inv s' := by
  induction acts generalizing s with
  | nil => exact ⟨s, rfl, hs⟩
  | cons a acts ih =>
      obtain ⟨s₁, ha, h₁⟩ := hstep s a hs (hallowed [] a s (by simp) rfl)
      have hrest : ∀ pre b s₂, pre ++ [b] <+: acts → run step s₁ pre = some s₂ → Allowed s₂ b := by
        intro pre b s₂ hpre hrun
        exact hallowed (a :: pre) b s₂ (by simpa using hpre) (run_cons_eq_some.mpr ⟨s₁, ha, hrun⟩)
      obtain ⟨s', hrun, h'⟩ := ih h₁ hrest
      exact ⟨s', run_cons_eq_some.mpr ⟨s₁, ha, hrun⟩, h'⟩

/-- **The rule for measures**: when each turn is paid out of a measure, up to what the
step brings, the measure bounds the turns of a run. -/
theorem run_turns (μ : σ → Nat) (turn : α → Bool) (gain : α → Nat)
    (hstep : ∀ s a s', step s a = some s' →
      μ s' + (if turn a = true then 1 else 0) ≤ μ s + gain a)
    {acts : List α} (hrun : run step s acts = some s') :
    μ s' + acts.countP turn ≤ μ s + (acts.map gain).sum := by
  induction acts generalizing s with
  | nil =>
      obtain rfl := Option.some.inj hrun
      simp
  | cons a acts ih =>
      obtain ⟨s₁, ha, hrun⟩ := run_cons_eq_some.mp hrun
      have hμ := hstep s a s₁ ha
      have h := ih hrun
      rw [List.countP_cons, List.map_cons, List.sum_cons]
      omega

/-! ## Totals over threads -/

section Tally

variable {τ π M : Type} [Fintype τ] [AddCommMonoid M]

/-- What the places of all threads add up to. -/
def tally (f : π → M) (place : τ → π) : M := ∑ t, f (place t)

/-- A total does not see which of several places a thread is in when they contribute
the same. -/
theorem tally_congr {f g : π → M} {place place' : τ → π}
    (h : ∀ t, f (place t) = g (place' t)) : tally f place = tally g place' :=
  Finset.sum_congr rfl fun t _ => h t

variable [DecidableEq τ]

/-- **One thread moves**: its old contribution leaves the total and its new one joins. -/
theorem tally_update (f : π → M) (place : τ → π) (t : τ) (p : π) :
    f (place t) + tally f (Function.update place t p) = f p + tally f place := by
  have hold := Finset.add_sum_erase Finset.univ (fun u => f (place u)) (Finset.mem_univ t)
  have hnew := Finset.add_sum_erase Finset.univ (fun u => f (Function.update place t p u))
    (Finset.mem_univ t)
  have hrest : ∑ u ∈ Finset.univ.erase t, f (Function.update place t p u) =
      ∑ u ∈ Finset.univ.erase t, f (place u) := by
    apply Finset.sum_congr rfl
    intro u hu
    rw [Function.update_of_ne (Finset.ne_of_mem_erase hu)]
  rw [hrest, Function.update_self] at hnew
  rw [tally, tally, ← hold, ← hnew, add_left_comm]

end Tally

end Runs
